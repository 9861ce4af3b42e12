import CanixToolbelt.EvidenceCollection

/-! The checkpoint adopts whatever receipt an application of its pending batch returns,
and refuses every other one. -/
namespace CanixToolbelt
namespace Evidence
open Effect FileTree Script

/-! ## Reachable checkpoints -/

/-- The checkpoints of an exchange over fixed scopes: it imports identities that name
receiver paths, collects from any source, and adopts any receipts it accepts. -/
inductive Reachable (hash : List UInt8 → String) (allowed : List Path) : Exchange → Prop
  | start {known : Dict} (h : ∀ n ∈ known, Canonical n) :
      Reachable hash allowed (Exchange.fromKnown known)
  | prepare {x x' : Exchange} {W : Type} {M : World Req (fun q => Except Error (Rep q)) W}
      {nonce : Option (List UInt8)} (h : Reachable hash allowed x) (hM : Named M)
      (hs : (x.prepare hash allowed nonce).Yields M x') : Reachable hash allowed x'
  | acknowledge {x x' : Exchange} {r : Receipt} (h : Reachable hash allowed x)
      (hs : x.acknowledge hash r = .ok x') : Reachable hash allowed x'

/-- What a batch satisfies while it is pending. -/
structure Pending (hash : List UInt8 → String) (allowed : List Path) (known : Dict)
    (b : Batch) : Prop where
  collected : Collected known b
  valid : Valid hash allowed b
  encoded : boundedEncoding b = .ok ()
  nonce : requireExchangeNonce b = .ok ()
  size : known.size ≤ inventoryLimit

/-- What holds of every checkpoint an exchange reaches. -/
structure Held (hash : List UInt8 → String) (allowed : List Path) (x : Exchange) : Prop where
  known : ∀ n ∈ x.known, Canonical n
  pending : ∀ b, x.pending = some b → Pending hash allowed x.known b

section
variable {hash : List UInt8 → String} {allowed : List Path} {x x' : Exchange} {b : Batch}
  {r : Receipt} {W : Type} {M : World Req (fun q => Except Error (Rep q)) W}

theorem validateBatch_encoded {pruned : List Path × List Path}
    (h : validateBatch hash noProbe allowed b = .ok pruned) :
    Valid hash allowed b ∧ boundedEncoding b = .ok () := by
  refine ⟨(validateBatch_ok exceptOutcome noProbe_lift h).1,?_⟩
  obtain ⟨size,hs,-⟩ := Fallible.bind_ok h
  obtain ⟨u,hb,-⟩ := Fallible.bind_ok (noProbe_lift hs)
  exact hb

/-- The nonce counts neither as a path nor as an identity. -/
theorem Collected.nonce {known : Dict} (C : Collected known b) (id : Option String) :
    Collected known { b with exchangeId := id } :=
  ⟨C.verify,C.delete,C.room,C.uploads,C.prune⟩

/-- A preparation leaves a pending batch and changes nothing else. -/
theorem prepare_held (hscopes : PlainScopes allowed) (H : Held hash allowed x) (hM : Named M)
    {nonce : Option (List UInt8)} (h : (x.prepare hash allowed nonce).Yields M x') :
    Held hash allowed x' ∧ x'.known = x.known ∧ x'.pending.isSome := by
  unfold Exchange.prepare at h
  split at h
  · exact (yields_throw h).elim
  rename_i hbound
  simp only [not_or,not_lt] at hbound
  obtain ⟨-,-,h⟩ := yields_bind h
  split at h
  · rename_i b hb
    obtain ⟨-,-,h⟩ := yields_bind h
    obtain ⟨-,-,h⟩ := yields_bind h
    obtain rfl := yields_pure h
    exact ⟨H,rfl,by simp [hb]⟩
  · obtain ⟨b,hcollect,h⟩ := yields_bind h
    split at h
    · exact (yields_throw h).elim
    obtain ⟨pruned,hvalid,h⟩ := yields_bind h
    obtain ⟨u,hnonce,h⟩ := yields_bind h
    obtain rfl := yields_pure h
    obtain ⟨V,hencoded⟩ := validateBatch_encoded (checked_yields hvalid)
    have C := collectWith_collected hM hscopes hcollect
    refine ⟨⟨H.known,?_⟩,rfl,rfl⟩
    rintro _ ⟨⟩
    exact ⟨C.nonce _,V,hencoded,checked_yields hnonce,hbound.2.1⟩

/-! ## The bound on the cursor -/

theorem path_ne_nil {p : Path} (h : relative allowed p = .ok ()) : p ≠ [] := by
  rintro rfl
  obtain ⟨u,hu,-⟩ := Fallible.bind_ok h
  simp [scopedRelative,invalid] at hu

theorem Valid.name_relative (V : Valid hash allowed b) {n : String} (h : n ∈ b.names ++ b.prune) :
    relative allowed (components n) = .ok () := by
  rcases List.mem_append.1 h with h | h
  · rcases List.mem_append.1 h with h | h
    · obtain ⟨i,hi,rfl⟩ := List.mem_map.1 h
      rcases List.mem_append.1 hi with hi | hi
      · exact (V.identities i (List.mem_append_left _ hi)).1
      · obtain ⟨f,hf,rfl⟩ := List.mem_map.1 hi
        exact (V.files f hf).1
    · obtain ⟨i,hi,rfl⟩ := List.mem_map.1 h
      exact (V.identities i (List.mem_append_right _ hi)).1
  · exact (V.prune n h).1

/-- A name of the batch at or below this one: itself, or a removal below a root. -/
theorem Valid.exists_charge (V : Valid hash allowed b) {n : String} (h : n ∈ b.names ++ b.prune) :
    ∃ m ∈ b.names, (m = n ∨ n ∈ b.prune ∧ components n ∈ properAncestors (components m)) := by
  rcases List.mem_append.1 h with h | h
  · exact ⟨n,h,.inl rfl⟩
  · have hscoped := (V.prune n h).2
    simp only [pruneScoped,Bool.and_eq_true,List.any_eq_true] at hscoped
    obtain ⟨item,hitem,hw⟩ := hscoped.1
    have hne : components item.path ≠ components n := by simpa using hw.2
    refine ⟨item.path,List.mem_append_right _ (List.mem_map.2 ⟨item,hitem,rfl⟩),.inr ⟨h,?_⟩⟩
    exact mem_properAncestors.2 ⟨within_iff.1 hw.1,hne.symm⟩

/-- There are no more outermost conflicts than names in the batch. -/
theorem Valid.outermost_length (V : Valid hash allowed b) {conflicts cursor : List String}
    (hc : ∀ n ∈ conflicts, n ∈ b.names ++ b.prune) (hn : cursor.Nodup)
    (ho : ∀ n, n ∈ cursor → Outermost conflicts n) : cursor.length ≤ b.names.length := by
  have hex : ∀ n, ∃ m, n ∈ conflicts → m ∈ b.names ∧
      (m = n ∨ n ∈ b.prune ∧ components n ∈ properAncestors (components m)) := by
    intro n
    by_cases h : n ∈ conflicts
    · obtain ⟨m,hm,hor⟩ := V.exists_charge (hc n h)
      exact ⟨m,fun _ => ⟨hm,hor⟩⟩
    · exact ⟨n,fun h' => absurd h' h⟩
  choose charge hcharge using hex
  have hinj : (cursor.map charge).Nodup := by
    refine List.Nodup.map_on ?_ hn
    intro m hm n hn' he
    obtain ⟨hmc,hmo⟩ := ho m hm
    obtain ⟨hnc,hno⟩ := ho n hn'
    rcases (hcharge m hmc).2 with h₁ | ⟨hp₁,h₁⟩ <;> rcases (hcharge n hnc).2 with h₂ | ⟨hp₂,h₂⟩
    · rw [← h₁,he,h₂]
    · rw [← he,h₁] at h₂
      exact absurd h₂ (hmo n hnc)
    · rw [he,h₂] at h₁
      exact absurd h₁ (hno m hmc)
    · rw [← he] at h₂
      exact V.root_unique hp₁ hp₂ (within_iff.2 (mem_properAncestors.1 h₁).1)
        (within_iff.2 (mem_properAncestors.1 h₂).1)
  have hsub : (cursor.map charge).Subperm b.names := by
    apply hinj.subperm
    intro m hm
    obtain ⟨n,hn',rfl⟩ := List.mem_map.1 hm
    exact (hcharge n (ho n hn').1).1
  simpa using hsub.length_le

theorem mem_names_or {n : String} : n ∈ b.names ↔
    n ∈ b.uploads.map (·.path) ∨ n ∈ b.delete.map (·.path) := by
  simp only [Batch.names,List.mem_append]
  refine or_congr_left ?_
  constructor
  · intro h
    obtain ⟨i,hi,rfl⟩ := List.mem_map.1 h
    exact List.mem_map.2 ⟨i,mem_uploads.2 hi,rfl⟩
  · intro h
    obtain ⟨i,hi,rfl⟩ := List.mem_map.1 h
    exact List.mem_map.2 ⟨i,mem_uploads.1 hi,rfl⟩

/-- The names a batch has that are not acknowledged yet fit the remaining places. -/
theorem Pending.new_names {known : Dict} (P : Pending hash allowed known b) :
    (b.names.filter (· ∉ known)).length ≤ inventoryLimit - known.size := by
  have hverify : b.verify.filter (fun i : Identity => decide (i.path ∉ known)) = [] := by
    rw [List.filter_eq_nil_iff]
    intro i hi
    simp [mem_dict.2 ⟨_,P.collected.verify i hi⟩]
  have hdelete : b.delete.filter (fun i : Identity => decide (i.path ∉ known)) = [] := by
    rw [List.filter_eq_nil_iff]
    intro i hi
    simp [mem_dict.2 ⟨_,P.collected.delete i hi⟩]
  simp only [Batch.names,List.filter_append,List.filter_map,List.map_append,List.length_append,
    List.length_map,Function.comp_def,hverify,hdelete,Artifact.identity,List.length_nil,
    Nat.zero_add,Nat.add_zero]
  convert P.collected.room using 4
  exact decide_eq_decide.2 Iff.rfl

theorem Pending.names_length {known : Dict} (P : Pending hash allowed known b) :
    b.names.length ≤ inventoryLimit :=
  length_le_of_known P.valid.names_nodup P.new_names P.size

/-- A name of a pending batch spells its path as the exchange does. -/
theorem Pending.canonical {known : Dict} (hk : ∀ n ∈ known, Canonical n)
    (P : Pending hash allowed known b) {n : String} (h : n ∈ b.names ++ b.prune) :
    Canonical n := by
  rcases List.mem_append.1 h with h | h
  · rcases mem_names_or.1 h with h | h
    · exact P.collected.uploads n h
    · obtain ⟨i,hi,rfl⟩ := List.mem_map.1 h
      exact hk _ (mem_dict.2 ⟨_,P.collected.delete i hi⟩)
  · exact P.collected.prune n h

/-! ## The checkpoint after a receipt -/

/-- The checkpoint that adopts a receipt: the removed identities are gone, the accepted
ones are in place, and the cursor names the outermost conflicts. -/
structure Adopted (x : Exchange) (r : Receipt) (x' : Exchange) : Prop where
  known : ∀ n, x'.known[n]? = (r.accepted[n]?).or (if n ∈ r.removed then none else x.known[n]?)
  bound : x'.known.size ≤ inventoryLimit
  cursor : ∀ n, n ∈ x'.cursor ↔ Outermost r.conflicts n
  pending : x'.pending = none
  receipt : x'.lastReceipt = some r

/-- What acknowledgement does when none of its checks fails. -/
theorem acknowledge_eq {digest : String} {known' : Dict} (hb : x.pending = some b)
    (hnonce : requireExchangeNonce b = .ok ()) (hd : batchDigest hash b = .ok digest)
    (hr : r.batchSha256 = digest) (hc : consistent b r = true)
    (hf : forget r.removed.toList x.known = .ok known')
    (hk : (known'.insertMany r.accepted.toList).size ≤ inventoryLimit)
    (ho : (outermost r.conflicts).length ≤ inventoryLimit) :
    x.acknowledge hash r =
      .ok ⟨known'.insertMany r.accepted.toList,outermost r.conflicts,none,some r⟩ := by
  have h₁ : ¬ (known'.insertMany r.accepted.toList).size > inventoryLimit := by omega
  have h₂ : ¬ (outermost r.conflicts).length > inventoryLimit := by omega
  simp only [Exchange.acknowledge,hb]
  rw [hnonce,hd]
  simp only [hc,hf,h₁,h₂,hr,bind,Except.bind,if_false,ne_eq,not_true_eq_false]

/-- Whatever an application of the pending batch returns is adopted. -/
theorem Pending.adopted (H : Held hash allowed x) (hb : x.pending = some b)
    (h : (applyLocked hash allowed b).Yields M r) :
    (∃ x', x.acknowledge hash r = .ok x' ∧ Adopted x r x') ∧
      ∀ n ∈ r.conflicts, n ∉ r.accepted ∧ n ∉ r.removed := by
  have P := H.pending b hb
  obtain ⟨git,-,h⟩ := yields_bind h
  split at h
  · exact (yields_throw h).elim
  obtain ⟨⟨blocked,pruning⟩,hvalid,h⟩ := yields_bind h
  obtain ⟨digest,hdigest,h⟩ := yields_bind h
  obtain ⟨V,rfl,-⟩ := validateBatch_ok (ioOutcome M) (receiverProbe_lift hash) hvalid
  obtain ⟨D,hsha⟩ := applyItems_yields V h
  have hroots : ∀ n, n ∈ pruneOrder b (b.prune.map components).reverse ↔ n ∈ b.prune :=
    fun n => mem_pruneOrder_iff V
  have hdelete : ∀ n s, r.removed[n]? = some s → x.known[n]? = some s ∧ n ∈ b.delete.map (·.path) := by
    intro n s hn
    obtain ⟨i,hi,rfl,rfl,-⟩ := (D.removed n s).1 hn
    exact ⟨P.collected.delete i hi,List.mem_map.2 ⟨i,hi,rfl⟩⟩
  have haccept : ∀ n ∈ r.accepted, n ∈ b.uploads.map (·.path) := by
    intro n hn
    obtain ⟨s,hs⟩ := mem_dict.1 hn
    obtain ⟨i,hi,rfl,-⟩ := (D.accepted n s).1 hs
    exact List.mem_map.2 ⟨i,mem_uploads.2 hi,rfl⟩
  have hconf : ∀ n ∈ r.conflicts, n ∈ b.names ++ b.prune := by
    intro n hn
    rw [List.mem_append,mem_names_or]
    rcases D.conflicts n hn with h | h | h
    · obtain ⟨i,hi,rfl⟩ := List.mem_map.1 h
      exact .inl (.inl (List.mem_map.2 ⟨i,mem_uploads.2 hi,rfl⟩))
    · exact .inl (.inr h)
    · exact .inr ((hroots n).1 h)
  have hmem := mem_outermost (fun n hn => P.canonical H.known (hconf n hn))
    fun n hn => path_ne_nil (V.name_relative (hconf n hn))
  obtain ⟨known',hforget,hget⟩ := forget_ok Std.ExtTreeMap.distinct_keys_toList
    fun e he => (hdelete e.1 e.2 (Std.ExtTreeMap.mem_toList_iff_getElem?_eq_some.1 he)).1
  have hknown : ∀ n, (known'.insertMany r.accepted.toList)[n]? =
      (r.accepted[n]?).or (if n ∈ r.removed then none else x.known[n]?) := by
    intro n
    rw [getElem?_insertAll,hget n,Std.ExtTreeMap.map_fst_toList_eq_keys]
    simp only [Std.ExtTreeMap.mem_keys]
  have hsize : (known'.insertMany r.accepted.toList).size ≤ inventoryLimit := by
    rw [← Std.ExtTreeMap.length_keys]
    refine length_le_of_known (keys_nodup _) (le_trans ?_ P.new_names) P.size
    apply List.Subperm.length_le
    apply ((keys_nodup _).filter _).subperm
    intro n hn
    obtain ⟨hn,hnew⟩ := List.mem_filter.1 hn
    have hnew' : n ∉ x.known := by simpa using hnew
    refine List.mem_filter.2 ⟨mem_names_or.2 (.inl (haccept n ?_)),by simpa using hnew'⟩
    obtain ⟨s,hs⟩ := mem_dict.1 (Std.ExtTreeMap.mem_keys.1 hn)
    rw [hknown n,Option.or_eq_some_iff] at hs
    rcases hs with hs | ⟨-,hs⟩
    · exact mem_dict.2 ⟨s,hs⟩
    · split at hs
      · cases hs
      · exact absurd (mem_dict.2 ⟨s,hs⟩) hnew'
  have hcursor : (outermost r.conflicts).length ≤ inventoryLimit :=
    le_trans (V.outermost_length hconf (outermost_nodup _) fun n => (hmem n).1) P.names_length
  constructor
  · exact ⟨_,acknowledge_eq hb P.nonce (checked_yields hdigest) hsha
      (consistent_of_decided V hroots D) hforget hsize hcursor,hknown,hsize,hmem,rfl,rfl⟩
  · intro n hn
    constructor
    · intro ha
      obtain ⟨s,hs⟩ := mem_dict.1 ha
      obtain ⟨i,hi,-,-,hnot⟩ := (D.accepted n s).1 hs
      exact hnot hn
    · intro hr
      obtain ⟨s,hs⟩ := mem_dict.1 hr
      obtain ⟨i,hi,-,-,hnot,-⟩ := (D.removed n s).1 hs
      exact hnot hn

theorem forget_known {rest : List (String × String)} {known known' : Dict}
    (h : forget rest known = .ok known') {n : String} (hn : n ∈ known') : n ∈ known := by
  induction rest generalizing known with
  | nil =>
    cases h
    exact hn
  | cons e rest ih =>
    obtain ⟨path,sha⟩ := e
    unfold forget at h
    split at h
    · cases h
    · exact (Std.ExtTreeMap.mem_erase.1 (ih h)).2

/-- Identities a checkpoint adopts name paths of the batch or were known. -/
theorem acknowledge_held (H : Held hash allowed x) (h : x.acknowledge hash r = .ok x') :
    Held hash allowed x' := by
  unfold Exchange.acknowledge at h
  split at h
  · cases h
  rename_i b hb
  obtain ⟨-,-,h⟩ := Fallible.bind_ok h
  obtain ⟨digest,-,h⟩ := Fallible.bind_ok h
  split at h
  · cases h
  split at h
  · cases h
  rename_i hc
  rw [not_not] at hc
  obtain ⟨known',hforget,h⟩ := Fallible.bind_ok h
  dsimp only at h
  split at h
  · cases h
  split at h
  · cases h
  cases h
  refine ⟨?_,by simp⟩
  intro n hn
  obtain ⟨s,hs⟩ := mem_dict.1 hn
  rw [getElem?_insertAll,Option.or_eq_some_iff] at hs
  rcases hs with hs | ⟨-,hs⟩
  · simp only [consistent,Bool.and_eq_true,List.all_eq_true] at hc
    have hacc := (hc.1.1.1.1.1.1.1.2 (n,s) (Std.ExtTreeMap.mem_toList_iff_getElem?_eq_some.2 hs)).1
    have hmem : n ∈ identities b.uploads := mem_dict.2 ⟨s,of_decide_eq_true hacc⟩
    exact (H.pending b hb).collected.uploads n (mem_identities.1 hmem)
  · exact H.known n (forget_known hforget (mem_dict.2 ⟨s,hs⟩))

/-- Every reachable checkpoint holds identities with canonical names and a valid batch. -/
theorem Reachable.held (hscopes : PlainScopes allowed) (h : Reachable hash allowed x) :
    Held hash allowed x := by
  induction h with
  | start h => exact ⟨h,by simp [Exchange.fromKnown]⟩
  | prepare _ hM hs ih => exact (prepare_held hscopes ih hM hs).1
  | acknowledge _ hs ih => exact acknowledge_held ih hs

/-! ## Receipts that are refused -/

/-- A path of the batch has an outcome: one of its own, or the conflict of the retirement
root it lies below. -/
def Resolved (b : Batch) (r : Receipt) (n : String) : Prop :=
  n ∈ r.accepted ∨ n ∈ r.removed ∨ n ∈ r.pruned ∨ n ∈ r.conflicts ∨
    rootConflict b r.conflicts n = true

/-- A receipt names a path. -/
def Receipt.names (r : Receipt) : List String :=
  r.accepted.keys ++ r.removed.keys ++ r.pruned ++ r.conflicts

theorem resolved_of_consistent (h : consistent b r = true) {n : String}
    (hn : n ∈ b.names ++ b.prune) : Resolved b r n := by
  simp only [consistent,Bool.and_eq_true,List.all_eq_true,Bool.or_eq_true,decide_eq_true_eq] at h
  obtain ⟨⟨⟨⟨-,huploads⟩,hdeletes⟩,hroots⟩,-⟩ := h
  rcases List.mem_append.1 hn with hn | hn
  · rcases mem_names_or.1 hn with hn | hn
    · obtain ⟨s,hs⟩ := mem_dict.1 (mem_identities.2 hn)
      rcases huploads (n,s) (Std.ExtTreeMap.mem_toList_iff_getElem?_eq_some.2 hs) with h | h
      · exact .inl (mem_dict.2 ⟨s,h⟩)
      · exact .inr (.inr (.inr (.inl h)))
    · obtain ⟨s,hs⟩ := mem_dict.1 (mem_identities.2 hn)
      rcases hdeletes (n,s) (Std.ExtTreeMap.mem_toList_iff_getElem?_eq_some.2 hs) with (h | h) | h
      · exact .inr (.inl (mem_dict.2 ⟨s,h⟩))
      · exact .inr (.inr (.inr (.inl h)))
      · exact .inr (.inr (.inr (.inr h)))
  · rcases hroots n hn with h | h
    · exact .inr (.inr (.inl h))
    · exact .inr (.inr (.inr (.inl h)))

theorem named_of_consistent (h : consistent b r = true) {n : String} (hn : n ∈ r.names) :
    n ∈ b.names ++ b.prune := by
  simp only [consistent,Bool.and_eq_true,List.all_eq_true,Bool.or_eq_true,decide_eq_true_eq] at h
  obtain ⟨⟨⟨⟨⟨⟨⟨⟨-,haccepted⟩,hremoved⟩,hpruned⟩,hconflicts⟩,-⟩,-⟩,-⟩,-⟩ := h
  rw [List.mem_append,mem_names_or]
  simp only [Receipt.names,List.mem_append,Std.ExtTreeMap.mem_keys] at hn
  rcases hn with ((hn | hn) | hn) | hn
  · obtain ⟨s,hs⟩ := mem_dict.1 hn
    have hmem := (haccepted (n,s) (Std.ExtTreeMap.mem_toList_iff_getElem?_eq_some.2 hs)).1
    exact .inl (.inl (mem_identities.1 (mem_dict.2 ⟨s,hmem⟩)))
  · obtain ⟨s,hs⟩ := mem_dict.1 hn
    have hmem := (hremoved (n,s) (Std.ExtTreeMap.mem_toList_iff_getElem?_eq_some.2 hs)).1
    exact .inl (.inr (mem_identities.1 (mem_dict.2 ⟨s,hmem⟩)))
  · exact .inr (hpruned n hn).1
  · rcases hconflicts n hn with (h | h) | h
    · exact .inl (.inl (mem_identities.1 h))
    · exact .inl (.inr (mem_identities.1 h))
    · exact .inr h

/-- Acceptance needs the digest of the pending batch and a consistent receipt. -/
theorem acknowledge_ok (hb : x.pending = some b) (h : x.acknowledge hash r = .ok x') :
    batchDigest hash b = .ok r.batchSha256 ∧ consistent b r = true := by
  simp only [Exchange.acknowledge,hb] at h
  obtain ⟨-,-,h⟩ := Fallible.bind_ok h
  obtain ⟨digest,hd,h⟩ := Fallible.bind_ok h
  split at h
  · cases h
  · rename_i hr
    split at h
    · cases h
    · rename_i hc
      rw [not_not] at hr hc
      exact ⟨hr ▸ hd,hc⟩

/-- A receipt for another batch, one that leaves a path of the batch without an outcome,
or one that names a path outside the batch. -/
def Unsound (hash : List UInt8 → String) (b : Batch) (r : Receipt) : Prop :=
  batchDigest hash b ≠ .ok r.batchSha256 ∨ (∃ n ∈ b.names ++ b.prune, ¬ Resolved b r n) ∨
    ∃ n ∈ r.names, n ∉ b.names ++ b.prune

theorem Unsound.refused (hb : x.pending = some b) (h : Unsound hash b r) :
    ∃ e, x.acknowledge hash r = .error e := by
  cases ha : x.acknowledge hash r with
  | error e => exact ⟨e,rfl⟩
  | ok x' =>
    obtain ⟨hd,hc⟩ := acknowledge_ok hb ha
    rcases h with h | ⟨n,hn,h⟩ | ⟨n,hn,h⟩
    · exact absurd hd h
    · exact absurd (resolved_of_consistent hc hn) h
    · exact absurd (named_of_consistent hc hn) h

/-- For every batch a reachable checkpoint prepares: whatever receipt an application of
it returns, on any receiver and beside any other writer, is adopted, and no path of it is
in conflict and accepted or removed at once; every unsound receipt is refused. -/
theorem receipt_adopted {nonce : Option (List UInt8)} (hscopes : PlainScopes allowed)
    (hx : Reachable hash allowed x) (hM : Named M)
    (hp : (x.prepare hash allowed nonce).Yields M x') :
    ∃ b, x'.pending = some b ∧ x'.known = x.known ∧
      (∀ (V : Type) (N : World Req (fun q => Except Error (Rep q)) V) r,
        (applyLocked hash allowed b).Yields N r →
        (∃ x'', x'.acknowledge hash r = .ok x'' ∧ Adopted x' r x'') ∧
          ∀ n ∈ r.conflicts, n ∉ r.accepted ∧ n ∉ r.removed) ∧
      ∀ r, Unsound hash b r → ∃ e, x'.acknowledge hash r = .error e := by
  obtain ⟨H,hknown,hsome⟩ := prepare_held hscopes (hx.held hscopes) hM hp
  obtain ⟨b,hb⟩ := Option.isSome_iff_exists.1 hsome
  exact ⟨b,hb,hknown,fun V N r hr => Pending.adopted H hb hr,fun r hr => hr.refused hb⟩

/-! ## An exchange of one file -/

def sampleSource : Tree := Std.ExtTreeMap.ofList [(["evidence"],Entry.file [104,105])]

/-- A source that stays as it is. -/
def sampleWorld : World Req (fun q => Except Error (Rep q)) Unit where
  step := fun q _ r _ => r = (serve q sampleSource).1

def sampleUpload : Batch :=
  { Batch.empty with exchangeId := some (sampleHash [1])
                     files := [⟨"evidence",sampleHash [104,105],none,[104,105]⟩] }

def samplePrepare := advance (fun q (_ : Unit) => ((serve q sampleSource).1,())) 20
  (((Exchange.fromKnown ∅).prepare sampleHash [["evidence"]] (some [1])).start ()) ()

def sampleTransfer := advance serve 20
  ((applyLocked sampleHash [["evidence"]] sampleUpload).start ()) ∅

/-- The batch a finished preparation leaves. -/
def preparedBatch (p : Prog Req (fun q => Except Error (Rep q)) (Except Error Exchange × Unit)) :
    Option Batch :=
  match p with
  | .ret (.ok x,_) => x.pending
  | _ => none

/-- The identities a finished application accepts. -/
def appliedNames (p : Prog Req (fun q => Except Error (Rep q)) (Except Error Receipt × Unit)) :
    Option (List (String × String)) :=
  match p with
  | .ret (.ok r,_) => some r.accepted.toList
  | _ => none

theorem of_preparedBatch {p : Prog Req (fun q => Except Error (Rep q)) (Except Error Exchange × Unit)}
    (h : preparedBatch p = some b) : ∃ x, p = .ret (.ok x,()) ∧ x.pending = some b := by
  unfold preparedBatch at h
  split at h
  · exact ⟨_,rfl,h⟩
  · cases h

theorem of_appliedNames {p : Prog Req (fun q => Except Error (Rep q)) (Except Error Receipt × Unit)}
    {names : List (String × String)} (h : appliedNames p = some names) :
    ∃ r, p = .ret (.ok r,()) ∧ r.accepted.toList = names := by
  unfold appliedNames at h
  split at h
  · exact ⟨_,rfl,Option.some.inj h⟩
  · cases h

theorem sampleWorld_named : Named sampleWorld := by
  intro p w names w' h n hn
  have hs : (Except.ok names : Except Error (List String)) = (serve (.list p) sampleSource).1 := h
  simp only [serve] at hs
  split at hs
  · obtain rfl := Except.ok.inj hs
    obtain ⟨q,hq,hc⟩ := List.mem_filterMap.1 hn
    have hq' : q ∈ [["evidence"]] := by
      rw [show [["evidence"]] = sampleSource.keys from by decide +kernel]
      exact hq
    obtain rfl := List.mem_singleton.1 hq'
    simp only [childName,List.getLast?_singleton] at hc
    split at hc
    · obtain rfl := Option.some.inj hc
      exact ⟨by decide,by decide,by decide⟩
    · cases hc
  · cases hs

theorem sample_adopted : ∃ x r x', Exchange.pending x = some sampleUpload ∧
    r.accepted.toList = [("evidence",sampleHash [104,105])] ∧
    x.acknowledge sampleHash r = .ok x' ∧ Adopted x r x' := by
  have hb : preparedBatch samplePrepare.1 = some sampleUpload := by decide +kernel
  have hr : appliedNames sampleTransfer.1 = some [("evidence",sampleHash [104,105])] := by
    decide +kernel
  obtain ⟨x,hx,hpending⟩ := of_preparedBatch hb
  obtain ⟨r,hr,haccepted⟩ := of_appliedNames hr
  have hyields : ((Exchange.fromKnown ∅).prepare sampleHash [["evidence"]] (some [1])).Yields
      sampleWorld x := by
    refine ⟨(),(),(),samplePrepare.2,?_⟩
    rw [← hx]
    exact reach_advance (fun _ _ => rfl) 20 _ _
  have happly : (applyLocked sampleHash [["evidence"]] sampleUpload).Yields (disk false) r := by
    refine ⟨(),∅,(),sampleTransfer.2,?_⟩
    rw [← hr]
    exact reach_advance (serve_step false) 20 _ _
  have hscopes : PlainScopes [["evidence"]] := by
    intro p hp
    obtain rfl := List.mem_singleton.1 hp
    simp [Plain]
  obtain ⟨b,hxb,-,hall,-⟩ := receipt_adopted hscopes (.start (by simp)) sampleWorld_named hyields
  obtain rfl := Option.some.inj (hxb.symm.trans hpending)
  obtain ⟨⟨x',hok,hadopted⟩,-⟩ := hall _ _ r happly
  exact ⟨x,r,x',hpending,haccepted,hok,hadopted⟩

end

end Evidence
end CanixToolbelt
