import CanixToolbelt.EvidenceExchange

/-! What the collection of a batch gathers, however the source answers. -/
namespace CanixToolbelt
namespace Evidence
open Effect FileTree Script

/-! ## What a collection gathers -/

/-- Directories list plain names. -/
def Named {W : Type} (M : World Req (fun q => Except Error (Rep q)) W) : Prop :=
  ∀ p w (names : List String) w', M.step (.list p) w (.ok names) w' → ∀ n ∈ names, Plain n

/-- What a collection against acknowledged identities has gathered at any time. -/
structure Gathered (known : Dict) (c : Collect) : Prop where
  verify : ∀ i ∈ c.batch.verify, known[i.path]? = some i.sha256
  delete : ∀ i ∈ c.batch.delete, known[i.path]? = some i.sha256
  room : (c.batch.files.filter (·.path ∉ known)).length + c.newRemaining ≤
    inventoryLimit - known.size
  uploads : ∀ n ∈ c.batch.uploads.map (·.path), Canonical n
  prune : ∀ n ∈ c.batch.prune, components n ≠ [] ∧ ∀ x ∈ components n, Plain x

section
variable {hash : List UInt8 → String} {known : Dict} {cursor : List String} {W : Type}
  {M : World Req (fun q => Except Error (Rep q)) W} {c c' : Collect} {path : Path}

theorem yields_ask {Q W σ ε : Type} {B : Q → Type} {M : World Q (fun q => Except ε (B q)) W}
    {q : Q} {a : B q} (h : (Script.ask q : Script Q B σ ε (B q)).Yields M a) :
    ∃ w w', M.step q w (.ok a) w' := by
  obtain ⟨s,w,s',w',h⟩ := h
  generalize hx : (Script.ask q : Script Q B σ ε (B q)).start s = x at h
  generalize hy : (Prog.ret (Except.ok a,s') : Prog Q (fun q => Except ε (B q)) _) = y at h
  induction h with
  | refl => subst hy; cases hx
  | rely hr h ih => exact ih hx hy
  | step hs h ih =>
    cases hx
    cases h with
    | refl =>
      cases hy
      exact ⟨_,_,hs⟩

theorem Gathered.defer (G : Gathered known c) (name : String) : Gathered known (c.defer name) :=
  ⟨G.verify,G.delete,G.room,G.uploads,G.prune⟩

theorem Gathered.omit_ (G : Gathered known c) (name : String) : Gathered known (c.omit_ name) :=
  ⟨G.verify,G.delete,G.room,G.uploads,G.prune⟩

theorem bounded_yields (h : (c.bounded).Yields M c') : c' = c := by
  unfold Collect.bounded at h
  split at h
  · exact (yields_throw h).elim
  · exact (yields_pure h).symm

theorem Gathered.transition (G : Gathered known c) (hne : path ≠ []) (hp : ∀ x ∈ path, Plain x) :
    Gathered known (c.transition (render path)) := by
  refine ⟨G.verify,G.delete,G.room,G.uploads,?_⟩
  intro n hn
  rcases List.mem_append.1 hn with h | h
  · exact G.prune n h
  · obtain rfl := List.mem_singleton.1 h
    rw [components_render hp]
    exact ⟨hne,hp⟩

theorem Gathered.addVerify (G : Gathered known c) {name sha : String} (hk : known[name]? = some sha)
    (hcan : Canonical name) : Gathered known (c.verify name sha) := by
  refine ⟨?_,G.delete,G.room,?_,G.prune⟩
  · intro i hi
    rcases List.mem_append.1 hi with h | h
    · exact G.verify i h
    · obtain rfl := List.mem_singleton.1 h
      exact hk
  · intro n hn
    have hu : n ∈ c.batch.uploads.map (·.path) ∨ n = name := by
      simpa [Batch.uploads,Collect.verify,or_assoc] using hn
    rcases hu with h | rfl
    · exact G.uploads n h
    · exact hcan

theorem Gathered.addDelete (G : Gathered known c) {name sha : String}
    (hk : known[name]? = some sha) : Gathered known (c.delete name sha) := by
  refine ⟨G.verify,?_,G.room,G.uploads,G.prune⟩
  intro i hi
  rcases List.mem_append.1 hi with h | h
  · exact G.delete i h
  · obtain rfl := List.mem_singleton.1 h
    exact hk

/-- A new name takes one of the places that remain. -/
theorem Gathered.addUpload (G : Gathered known c) {name sha : String} {bytes : List UInt8}
    (hnew : ¬ (known[name]? = none ∧ c.newRemaining = 0)) (hcan : Canonical name) :
    Gathered known (c.upload name sha known[name]? bytes) := by
  refine ⟨G.verify,G.delete,?_,?_,G.prune⟩
  · have hroom := G.room
    simp only [Collect.upload,List.filter_append,List.length_append]
    cases hk : known[name]? with
    | none =>
      have hmem : name ∉ known := by
        rw [mem_dict]
        simp [hk]
      have hpos : c.newRemaining ≠ 0 := fun h => hnew ⟨hk,h⟩
      have hone : [(⟨name,sha,none,bytes⟩ : Artifact)].filter (·.path ∉ known) =
          [⟨name,sha,none,bytes⟩] := by
        simp [hmem]
      rw [hone]
      simp only [List.length_singleton,Option.isNone_none,if_true]
      omega
    | some s =>
      have hmem : name ∈ known := mem_dict.2 ⟨s,hk⟩
      have hnone : [(⟨name,sha,some s,bytes⟩ : Artifact)].filter (·.path ∉ known) = [] := by
        simp [hmem]
      rw [hnone]
      simpa using hroom
  · intro n hn
    have hu : n ∈ c.batch.uploads.map (·.path) ∨ n = name := by
      simp only [Batch.uploads,Collect.upload,List.map_append,List.map_cons,List.map_nil,
        List.mem_append,List.mem_singleton] at hn ⊢
      tauto
    rcases hu with h | rfl
    · exact G.uploads n h
    · exact hcan

theorem collectFile_gathered (G : Gathered known c) (hne : path ≠ []) (hp : ∀ x ∈ path, Plain x)
    (h : (collectFile hash known path c).Yields M c') : Gathered known c' := by
  simp only [collectFile] at h
  split at h
  · obtain rfl := yields_pure h
    exact G.transition hne hp
  obtain ⟨bytes,-,h⟩ := yields_bind h
  split at h
  · rename_i hk
    split at h
    · exact (yields_throw h).elim
    · obtain rfl := yields_pure h
      exact G.addVerify hk (canonical_render hp)
  · split at h
    · obtain rfl := bounded_yields h
      exact G.defer _
    · rename_i hcond
      obtain rfl := bounded_yields h
      simp only [not_or] at hcond
      exact G.addUpload hcond.2.2 (canonical_render hp)

theorem walkAll_gathered {step : String → Collect → Io Collect} {names : List String}
    (hstep : ∀ n ∈ names, ∀ c c', Gathered known c → (step n c).Yields M c' → Gathered known c')
    (G : Gathered known c) (h : (walkAll step names c).Yields M c') : Gathered known c' := by
  induction names generalizing c with
  | nil =>
    obtain rfl := yields_pure h
    exact G
  | cons n names ih =>
    obtain ⟨c₁,h₁,h₂⟩ := yields_bind h
    exact ih (fun m hm => hstep m (List.mem_cons_of_mem _ hm)) (hstep n (by simp) c c₁ G h₁) h₂

theorem countEntries_gathered {n : ℕ} (G : Gathered known c)
    (h : (countEntries n c).Yields M c') : Gathered known c' := by
  unfold countEntries at h
  split at h
  · exact (yields_throw h).elim
  · obtain rfl := yields_pure h
    exact ⟨G.verify,G.delete,G.room,G.uploads,G.prune⟩

theorem collectDirectory_gathered (hM : Named M) {step : String → Collect → Io Collect}
    (hstep : ∀ n, Plain n → ∀ c c', Gathered known c → (step n c).Yields M c' → Gathered known c')
    (G : Gathered known c) (h : (collectDirectory known path step c).Yields M c') :
    Gathered known c' := by
  obtain ⟨opened,-,h⟩ := yields_bind h
  split at h
  · exact (yields_throw h).elim
  obtain ⟨git,-,h⟩ := yields_bind h
  split at h
  · obtain rfl := bounded_yields h
    exact G.omit_ _
  split at h
  · obtain rfl := bounded_yields h
    exact G.defer _
  obtain ⟨names,hlist,h⟩ := yields_bind h
  obtain ⟨w,w',hs⟩ := yields_ask hlist
  obtain ⟨c₁,h₁,h⟩ := yields_bind h
  obtain ⟨c₂,h₂,h⟩ := yields_bind h
  obtain rfl := bounded_yields h
  refine walkAll_gathered ?_ (countEntries_gathered G h₁) h₂
  intro n hn
  exact hstep n (hM path w names w' hs n ((List.mem_insertionSort _).1 hn))

/-- A walk gathers plain names only, however the source answers. -/
theorem walk_gathered (hM : Named M) (n : ℕ) (hne : path ≠ []) (hp : ∀ x ∈ path, Plain x)
    (G : Gathered known c) (h : (walk hash known cursor n path c).Yields M c') :
    Gathered known c' := by
  induction n generalizing path c c' with
  | zero => exact (yields_throw h).elim
  | succ n ih =>
    obtain ⟨entry,-,h⟩ := yields_bind h
    split at h
    · obtain rfl := yields_pure h
      exact G
    split at h
    · obtain rfl := yields_pure h
      exact G.defer _
    split at h
    · obtain rfl := bounded_yields h
      exact G.omit_ _
    split at h
    · refine collectDirectory_gathered hM ?_ G h
      intro m hm c c' G' h'
      refine ih (by simp) ?_ G' h'
      intro x hx
      rcases List.mem_append.1 hx with hx | hx
      · exact hp x hx
      · rw [List.mem_singleton.1 hx]
        exact hm
    · split at h
      · obtain rfl := bounded_yields h
        exact G.omit_ _
      · exact collectFile_gathered G hne hp h
    · obtain rfl := bounded_yields h
      exact G.omit_ _
    · obtain rfl := bounded_yields h
      exact G.omit_ _

theorem collectRoots_gathered (hM : Named M) {roots : List Path}
    (hroots : ∀ p ∈ roots, p ≠ [] ∧ ∀ x ∈ p, Plain x) (G : Gathered known c)
    (h : (collectRoots hash known cursor roots c).Yields M c') : Gathered known c' := by
  induction roots generalizing c with
  | nil =>
    obtain rfl := yields_pure h
    exact G
  | cons p roots ih =>
    have hrest : ∀ q ∈ roots, q ≠ [] ∧ ∀ x ∈ q, Plain x := fun q hq =>
      hroots q (List.mem_cons_of_mem _ hq)
    obtain ⟨hne,hp⟩ := hroots p (by simp)
    unfold collectRoots at h
    split at h
    · exact (yields_throw h).elim
    obtain ⟨parent,-,h⟩ := yields_bind h
    have G' : Gathered known { c with entries := c.entries + 1 } :=
      ⟨G.verify,G.delete,G.room,G.uploads,G.prune⟩
    split at h
    · exact ih hrest (G'.omit_ _) h
    · exact (yields_throw h).elim
    · exact ih hrest G' h
    · obtain ⟨c₁,h₁,h₂⟩ := yields_bind h
      exact ih hrest (walk_gathered hM _ hne hp G' h₁) h₂

theorem retireKnown_gathered {name sha : String} (G : Gathered known c)
    (hk : known[name]? = some sha) (h : (retireKnown name sha c).Yields M c') :
    Gathered known c' := by
  unfold retireKnown at h
  split at h
  · exact (yields_throw h).elim
  split at h
  · obtain rfl := bounded_yields h
    exact G.defer _
  · obtain rfl := yields_pure h
    exact G.addDelete hk

theorem collectKnown_gathered {unique deferredRoots : List Path} {observed : List String}
    {rest : List (String × String)} (hrest : ∀ e ∈ rest, known[e.1]? = some e.2)
    (G : Gathered known c)
    (h : (collectKnown cursor unique deferredRoots observed rest c).Yields M c') :
    Gathered known c' := by
  induction rest generalizing c with
  | nil =>
    obtain rfl := yields_pure h
    exact G
  | cons e rest ih =>
    obtain ⟨name,sha⟩ := e
    have hk : known[name]? = some sha := hrest (name,sha) (by simp)
    have hrest' : ∀ e ∈ rest, known[e.1]? = some e.2 := fun e he =>
      hrest e (List.mem_cons_of_mem _ he)
    simp only [collectKnown] at h
    split at h
    · exact ih hrest' G h
    obtain ⟨-,-,h⟩ := yields_bind h
    split at h
    · exact ih hrest' G h
    split at h
    · split at h
      · exact ih hrest' G h
      · exact ih hrest' (G.defer _) h
    obtain ⟨fate,-,h⟩ := yields_bind h
    split at h
    · exact ih hrest' G h
    · exact ih hrest' (G.omit_ _) h
    · obtain ⟨c₁,h₁,h₂⟩ := yields_bind h
      exact ih hrest' (retireKnown_gathered G hk h₁) h₂

theorem dedupFiles_sublist (files : List Artifact) : (dedupFiles files).Sublist files := by
  induction files with
  | nil => simp [dedupFiles]
  | cons a as ih =>
    unfold dedupFiles
    split
    · simp
    · rename_i b bs hd
      rw [hd] at ih
      split
      · exact ((List.sublist_cons_self b bs).trans ih).cons_cons a
      · exact ih.cons_cons a

/-- Directories a transition may retire are spelled by plain components. -/
def PlainKeys (counts : Counts) : Prop := ∀ p ∈ counts, p ≠ [] ∧ ∀ x ∈ p, Plain x

theorem countDirectories_plain {removed : Bool} {ps : List Path} {counts counts' : Counts}
    (hps : ∀ p ∈ ps, p ≠ [] ∧ ∀ x ∈ p, Plain x) (hc : PlainKeys counts)
    (h : countDirectories removed ps counts = .ok counts') : PlainKeys counts' := by
  induction ps generalizing counts with
  | nil =>
    cases h
    exact hc
  | cons p ps ih =>
    unfold countDirectories at h
    split at h
    · cases h
    · refine ih (fun q hq => hps q (List.mem_cons_of_mem _ hq)) ?_ h
      intro q hq
      rcases Std.ExtTreeMap.mem_insert.1 hq with he | hq
      · have he' : p = q := by simpa using he
        exact he' ▸ hps p (by simp)
      · exact hc q hq

theorem countKnown_plain {b : Batch} {root : Path} (hne : root ≠ []) (hroot : ∀ x ∈ root, Plain x)
    {rest : List (String × String)} {counts counts' : Counts} (hc : PlainKeys counts)
    (h : countKnown b root rest counts = .ok counts') : PlainKeys counts' := by
  induction rest generalizing counts with
  | nil =>
    cases h
    exact hc
  | cons e rest ih =>
    obtain ⟨name,sha⟩ := e
    simp only [countKnown] at h
    split at h
    · rename_i hw
      obtain ⟨counts₁,h₁,h⟩ := Fallible.bind_ok h
      refine ih (countDirectories_plain ?_ hc h₁) h
      intro p hp
      obtain ⟨hanc,hin⟩ := List.mem_filter.1 hp
      have hpre := within_iff.1 hin
      have hplain := plain_below hne hroot (within_iff.1 hw)
      have hsub := (mem_properAncestors.1 hanc).1
      constructor
      · rintro rfl
        exact hne (List.prefix_nil.1 hpre)
      · intro x hx
        exact hplain x (hsub.subset hx)
    · exact ih hc h

theorem countTransitions_plain {b : Batch} {roots : List String} {counts counts' : Counts}
    (hroots : ∀ n ∈ roots, components n ≠ [] ∧ ∀ x ∈ components n, Plain x)
    (hc : PlainKeys counts) (h : countTransitions known b roots counts = .ok counts') :
    PlainKeys counts' := by
  induction roots generalizing counts with
  | nil =>
    cases h
    exact hc
  | cons n roots ih =>
    obtain ⟨counts₁,h₁,h⟩ := Fallible.bind_ok h
    obtain ⟨hne,hplain⟩ := hroots n (by simp)
    exact ih (fun m hm => hroots m (List.mem_cons_of_mem _ hm))
      (countKnown_plain hne hplain hc h₁) h

theorem mem_drainedRoots {counts : Counts} {p : Path} (h : p ∈ drainedRoots counts) :
    p ∈ counts := by
  have hall : ∀ (es : List (Path × ℕ × ℕ)) (roots : List Path),
      (∀ e ∈ es, e.1 ∈ counts) → (∀ q ∈ roots, q ∈ counts) →
      ∀ q ∈ es.foldl (fun roots e =>
        if e.2.1 = e.2.2 ∧ ¬ (properAncestors e.1).any (· ∈ roots) then roots ++ [e.1] else roots)
        roots, q ∈ counts := by
    intro es
    induction es with
    | nil =>
      intro roots _ hroots
      exact hroots
    | cons e es ih =>
      intro roots hes hroots
      refine ih _ (fun e he => hes e (List.mem_cons_of_mem _ he)) ?_
      dsimp only
      split
      · intro q hq
        rcases List.mem_append.1 hq with hq | hq
        · exact hroots q hq
        · rw [List.mem_singleton.1 hq]
          exact hes e (by simp)
      · exact hroots
  refine hall counts.toList [] ?_ (by simp) p h
  rintro ⟨q,n⟩ he
  rw [← Std.ExtTreeMap.mem_keys,← Std.ExtTreeMap.map_fst_toList_eq_keys]
  exact List.mem_map.2 ⟨(q,n),he,rfl⟩

/-- What a collected batch is made of. -/
structure Collected (known : Dict) (b : Batch) : Prop where
  verify : ∀ i ∈ b.verify, known[i.path]? = some i.sha256
  delete : ∀ i ∈ b.delete, known[i.path]? = some i.sha256
  room : (b.files.filter (·.path ∉ known)).length ≤ inventoryLimit - known.size
  uploads : ∀ n ∈ b.uploads.map (·.path), Canonical n
  prune : ∀ n ∈ b.prune, Canonical n

theorem finishBatch_collected {b : Batch} (G : Gathered known c)
    (h : finishBatch known c = .ok b) : Collected known b := by
  unfold finishBatch at h
  split at h
  · cases h
  obtain ⟨counts,hcounts,h⟩ := Fallible.bind_ok h
  dsimp only at h
  split at h
  · cases h
  obtain ⟨-,-,h⟩ := Fallible.bind_ok h
  cases h
  have hsub := dedupFiles_sublist (c.batch.files.insertionSort fun a b => a.path ≤ b.path)
  have hperm := List.perm_insertionSort (fun a b : Artifact => a.path ≤ b.path) c.batch.files
  have hfiles : ∀ a ∈ dedupFiles (c.batch.files.insertionSort fun a b => a.path ≤ b.path),
      a ∈ c.batch.files := fun a ha => hperm.mem_iff.1 (hsub.subset ha)
  refine ⟨G.verify,G.delete,?_,?_,?_⟩
  · have hlen := (hsub.filter (·.path ∉ known)).length_le
    have heq := (hperm.filter (·.path ∉ known)).length_eq
    have hroom := G.room
    dsimp only
    omega
  · intro n hn
    obtain ⟨i,hi,rfl⟩ := List.mem_map.1 hn
    refine G.uploads i.path (List.mem_map.2 ⟨i,?_,rfl⟩)
    rw [Batch.uploads,List.mem_append] at hi ⊢
    refine hi.imp_left fun hi => ?_
    obtain ⟨a,ha,rfl⟩ := List.mem_map.1 hi
    exact List.mem_map.2 ⟨a,hfiles a ha,rfl⟩
  · intro n hn
    obtain ⟨p,hp,rfl⟩ := List.mem_map.1 hn
    refine canonical_render (countTransitions_plain G.prune ?_ hcounts p (mem_drainedRoots hp)).2
    intro q hq
    simp at hq

/-- The scopes name their components plainly. -/
def PlainScopes (allowed : List Path) : Prop := ∀ p ∈ allowed, p ≠ [] ∧ ∀ x ∈ p, Plain x

theorem mem_uniqueRoots {allowed : List Path} {p : Path} (h : p ∈ uniqueRoots allowed) :
    p ∈ allowed := by
  have hall : ∀ (ps unique : List Path), (∀ q ∈ unique, q ∈ allowed) → (∀ q ∈ ps, q ∈ allowed) →
      ∀ q ∈ ps.foldl (fun unique p => if unique.any (within · p) then unique else unique ++ [p])
        unique, q ∈ allowed := by
    intro ps
    induction ps with
    | nil =>
      intro unique hu _
      exact hu
    | cons p ps ih =>
      intro unique hu hps
      refine ih _ ?_ fun q hq => hps q (List.mem_cons_of_mem _ hq)
      dsimp only
      split
      · exact hu
      · intro q hq
        rcases List.mem_append.1 hq with hq | hq
        · exact hu q hq
        · rw [List.mem_singleton.1 hq]
          exact hps p (by simp)
  refine hall _ [] (by simp) ?_ p h
  intro q hq
  exact (List.mem_insertionSort _).1 hq

/-- However the source answers, a collection gives a batch that is bound to the
acknowledged identities. -/
theorem collectWith_collected (hM : Named M) {allowed : List Path} (hscopes : PlainScopes allowed)
    {b : Batch} (h : (collectWith hash known cursor allowed).Yields M b) : Collected known b := by
  obtain ⟨-,-,h⟩ := yields_bind h
  obtain ⟨git,-,h⟩ := yields_bind h
  split at h
  · exact (yields_throw h).elim
  obtain ⟨c₁,h₁,h⟩ := yields_bind h
  obtain ⟨c₂,h₂,h⟩ := yields_bind h
  have G : Gathered known ⟨Batch.empty,0,0,inventoryLimit - known.size⟩ := by
    constructor <;> simp [Batch.empty,Batch.uploads]
  have G₁ := collectRoots_gathered hM (fun p hp => hscopes p (mem_uniqueRoots hp)) G h₁
  have G₂ := collectKnown_gathered (fun e he => Std.ExtTreeMap.mem_toList_iff_getElem?_eq_some.1 he)
    G₁ h₂
  exact finishBatch_collected G₂ (checked_yields h)

end

end Evidence
end CanixToolbelt
