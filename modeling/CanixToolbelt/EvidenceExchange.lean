import CanixToolbelt.EvidenceReceiver

/-! The sender and the receiver of the evidence exchange agree: whatever receipt an
application of the pending batch returns, the checkpoint adopts it. -/
namespace CanixToolbelt
namespace Evidence
open Effect FileTree Script

/-! ## Outermost conflicts -/

theorem within_iff {root p : Path} : within root p = true ↔ root <+: p :=
  List.isPrefixOf_iff_prefix

theorem below_iff {roots : List String} {p : Path} :
    below roots p = true ↔ ∃ root ∈ roots, components root <+: p := by
  simp [below,within_iff]

/-- A path of the list that is below none of the others. -/
def Outermost (names : List String) (name : String) : Prop :=
  name ∈ names ∧ ∀ c ∈ names, components c ∉ properAncestors (components name)

/-- Below some name of a list means below an outermost one. -/
theorem exists_outermost {names : List String} {p : Path}
    (h : ∃ c ∈ names, components c <+: p) : ∃ c, Outermost names c ∧ components c <+: p := by
  obtain ⟨c,hc,hp⟩ := h
  induction hn : (components c).length using Nat.strong_induction_on generalizing c with
  | _ n ih =>
    by_cases ho : ∀ d ∈ names, components d ∉ properAncestors (components c)
    · exact ⟨c,⟨hc,ho⟩,hp⟩
    · simp only [not_forall,not_not] at ho
      obtain ⟨d,hd,hanc⟩ := ho
      obtain ⟨hpre,hne⟩ := mem_properAncestors.1 hanc
      have hlt : (components d).length < n := by
        rw [← hn]
        exact lt_of_le_of_ne hpre.length_le fun he => hne (hpre.eq_of_length he)
      exact ih _ hlt d hd (hpre.trans hp) rfl

/-- Names none of which is at or below a later one. -/
def Ordered (names : List String) : Prop :=
  names.Pairwise fun a b => ¬ components b <+: components a

theorem outermost_append {done : List String} {name : String}
    (ho : Ordered (done ++ [name])) (m : String) :
    Outermost (done ++ [name]) m ↔ Outermost done m ∨
      (m = name ∧ ∀ c ∈ done, ¬ components c <+: components name) := by
  have hlater : ∀ c ∈ done, ¬ components name <+: components c := fun c hc =>
    (List.pairwise_append.1 ho).2.2 c hc name (by simp)
  constructor
  · rintro ⟨hm,hall⟩
    rcases List.mem_append.1 hm with hm | hm
    · exact .inl ⟨hm,fun c hc => hall c (List.mem_append_left _ hc)⟩
    · obtain rfl := List.mem_singleton.1 hm
      refine .inr ⟨rfl,fun c hc hpre => ?_⟩
      refine hall c (List.mem_append_left _ hc) (mem_properAncestors.2 ⟨hpre,fun he => ?_⟩)
      exact hlater c hc (he ▸ List.prefix_rfl)
  · rintro (⟨hm,hall⟩ | ⟨rfl,hall⟩)
    · refine ⟨List.mem_append_left _ hm,fun c hc hanc => ?_⟩
      rcases List.mem_append.1 hc with hc | hc
      · exact hall c hc hanc
      · obtain rfl := List.mem_singleton.1 hc
        exact hlater m hm (mem_properAncestors.1 hanc).1
    · refine ⟨by simp,fun c hc hanc => ?_⟩
      obtain ⟨hpre,hne⟩ := mem_properAncestors.1 hanc
      rcases List.mem_append.1 hc with hc | hc
      · exact hall c hc hpre
      · obtain rfl := List.mem_singleton.1 hc
        exact hne rfl

theorem mem_outermostFold (names done cursor : List String) (ho : Ordered (done ++ names))
    (hc : ∀ m, m ∈ cursor ↔ Outermost done m) (m : String) :
    m ∈ names.foldl (fun cursor path =>
      if below cursor (components path) then cursor else cursor ++ [path]) cursor ↔
      Outermost (done ++ names) m := by
  induction names generalizing done cursor with
  | nil => simpa using hc m
  | cons name names ih =>
    have ho' : Ordered ((done ++ [name]) ++ names) := by simpa using ho
    have hfirst : Ordered (done ++ [name]) := (List.pairwise_append.1 ho').1
    have hbelow : below cursor (components name) = true ↔
        ∃ c ∈ done, components c <+: components name := by
      rw [below_iff]
      constructor
      · rintro ⟨c,hmem,hpre⟩
        exact ⟨c,((hc c).1 hmem).1,hpre⟩
      · intro h
        obtain ⟨c,hout,hpre⟩ := exists_outermost h
        exact ⟨c,(hc c).2 hout,hpre⟩
    have hnext : ∀ k, k ∈ (if below cursor (components name) then cursor else cursor ++ [name]) ↔
        Outermost (done ++ [name]) k := by
      intro k
      rw [outermost_append hfirst]
      split
      · rename_i hb
        obtain ⟨c,hcd,hpre⟩ := hbelow.1 hb
        rw [hc k]
        constructor
        · exact .inl
        · rintro (h | ⟨rfl,h⟩)
          · exact h
          · exact absurd hpre (h c hcd)
      · rename_i hb
        have hnone : ∀ c ∈ done, ¬ components c <+: components name := fun c hcd hpre =>
          hb (hbelow.2 ⟨c,hcd,hpre⟩)
        simp only [List.mem_append,List.mem_singleton,hc k]
        constructor
        · rintro (h | rfl)
          · exact .inl h
          · exact .inr ⟨rfl,hnone⟩
        · rintro (h | ⟨rfl,-⟩)
          · exact .inl h
          · exact .inr rfl
    have h := ih (done ++ [name]) _ ho' hnext
    simpa using h

theorem outermostFold_sublist (names cursor : List String) :
    (names.foldl (fun cursor path =>
      if below cursor (components path) then cursor else cursor ++ [path]) cursor).Sublist
      (cursor ++ names) := by
  induction names generalizing cursor with
  | nil => simp
  | cons name names ih =>
    refine (ih _).trans ?_
    dsimp only
    split
    · exact (List.Sublist.refl cursor).append (List.sublist_cons_self name names)
    · simp

/-- Sorted canonical names have ancestors before descendants. -/
theorem ordered_toList {names : List String} (hcan : ∀ n ∈ names, Canonical n)
    (hne : ∀ n ∈ names, components n ≠ []) : Ordered (Std.ExtTreeSet.ofList names).toList := by
  have hmem : ∀ n, n ∈ (Std.ExtTreeSet.ofList names).toList ↔ n ∈ names := by
    intro n
    simp [Std.ExtTreeSet.mem_toList,Std.ExtTreeSet.mem_ofList]
  have hsorted := Std.ExtTreeSet.ordered_toList (t := Std.ExtTreeSet.ofList names)
  refine hsorted.imp_of_mem ?_
  intro a b ha hb hlt hpre
  have ha' := (hmem a).1 ha
  have hb' := (hmem b).1 hb
  have hab : a < b := compare_lt_iff_lt.1 hlt
  by_cases he : components b = components a
  · have heq : a = b := by rw [← hcan a ha',← hcan b hb',he]
    exact absurd hab (heq ▸ lt_irrefl a)
  · have hba := canonical_lt (hcan b hb') (hcan a ha') (hne b hb')
      (mem_properAncestors.2 ⟨hpre,he⟩)
    exact absurd hab (lt_asymm hba)

/-- The cursor holds exactly the outermost conflicts, each once. -/
theorem mem_outermost {conflicts : List String} (hcan : ∀ n ∈ conflicts, Canonical n)
    (hne : ∀ n ∈ conflicts, components n ≠ []) (m : String) :
    m ∈ outermost conflicts ↔ Outermost conflicts m := by
  have hmem : ∀ n, n ∈ (Std.ExtTreeSet.ofList conflicts).toList ↔ n ∈ conflicts := by
    intro n
    simp [Std.ExtTreeSet.mem_toList,Std.ExtTreeSet.mem_ofList]
  have h := mem_outermostFold (Std.ExtTreeSet.ofList conflicts).toList [] []
    (by simpa using ordered_toList hcan hne) (by simp [Outermost]) m
  rw [outermost,h]
  simp only [List.nil_append,Outermost,hmem]

theorem outermost_nodup (conflicts : List String) : (outermost conflicts).Nodup := by
  have hs := outermostFold_sublist (Std.ExtTreeSet.ofList conflicts).toList []
  have hd := Std.ExtTreeSet.distinct_toList (t := Std.ExtTreeSet.ofList conflicts)
  refine List.Nodup.sublist hs (hd.imp ?_)
  rintro a b hab rfl
  simp at hab

/-! ## What receipts an application returns -/

/-- The outcomes a receipt records for the uploads, deletions and retirement roots
that have been decided. -/
structure Decided (r : Receipt) (up del : List Identity) (roots : List String) : Prop where
  accepted : ∀ n s, r.accepted[n]? = some s ↔
    ∃ i ∈ up, i.path = n ∧ i.sha256 = s ∧ n ∉ r.conflicts
  removed : ∀ n s, r.removed[n]? = some s ↔
    ∃ i ∈ del, i.path = n ∧ i.sha256 = s ∧ n ∉ r.conflicts ∧
      ∀ root ∈ roots, root ∈ r.conflicts → within (components root) (components n) = false
  pruned : ∀ n, n ∈ r.pruned ↔ n ∈ roots ∧ n ∉ r.conflicts
  complete : ∀ root ∈ roots, root ∉ r.conflicts → ∀ i ∈ del,
    within (components root) (components i.path) → i.path ∉ r.conflicts
  conflicts : ∀ n ∈ r.conflicts, n ∈ up.map (·.path) ∨ n ∈ del.map (·.path) ∨ n ∈ roots
  nodup : r.conflicts.Nodup
  retired : r.pruned.Nodup

section
variable {r : Receipt} {up del : List Identity} {roots : List String} {path sha name : String}

theorem decided_start (digest : String) : Decided ⟨digest,∅,∅,[],[]⟩ [] [] [] := by
  constructor <;> simp

theorem Decided.not_conflict (D : Decided r up del roots)
    (hnew : path ∉ up.map (·.path) ∧ path ∉ del.map (·.path) ∧ path ∉ roots) :
    path ∉ r.conflicts := by
  intro h
  rcases D.conflicts path h with h | h | h
  · exact hnew.1 h
  · exact hnew.2.1 h
  · exact hnew.2.2 h

theorem Decided.accept (D : Decided r up [] []) (hnew : path ∉ up.map (·.path)) :
    Decided (r.accept path sha) (up ++ [⟨path,sha⟩]) [] [] := by
  have hc := D.not_conflict ⟨hnew,by simp,by simp⟩
  constructor
  · intro n s
    rw [Receipt.accept,Std.ExtTreeMap.getElem?_insert]
    by_cases hn : path = n
    · subst hn
      simp only [compare_eq_iff_eq,if_true,Option.some.injEq]
      constructor
      · rintro rfl
        exact ⟨⟨path,sha⟩,by simp,rfl,rfl,hc⟩
      · rintro ⟨i,hi,hp,hs,-⟩
        rcases List.mem_append.1 hi with hi | hi
        · exact absurd (List.mem_map.2 ⟨i,hi,hp⟩) hnew
        · obtain rfl := List.mem_singleton.1 hi
          exact hs
    · simp only [compare_eq_iff_eq,if_neg hn,D.accepted n s]
      constructor
      · rintro ⟨i,hi,h⟩
        exact ⟨i,List.mem_append_left _ hi,h⟩
      · rintro ⟨i,hi,hp,h⟩
        rcases List.mem_append.1 hi with hi | hi
        · exact ⟨i,hi,hp,h⟩
        · obtain rfl := List.mem_singleton.1 hi
          exact absurd hp hn
  · exact D.removed
  · exact D.pruned
  · exact D.complete
  · intro n hn
    rcases D.conflicts n hn with h | h | h
    · exact .inl (by simp [List.map_append,h])
    · cases h
    · cases h
  · exact D.nodup
  · exact D.retired

/-- A conflict of a path that nothing has been decided about leaves all else as it was. -/
theorem Decided.conflict (D : Decided r up del []) {up' del' : List Identity}
    (hnew : path ∉ up.map (·.path) ∧ path ∉ del.map (·.path))
    (hup : ∀ i, i ∈ up' ↔ i ∈ up ∨ (i ∈ up' ∧ i.path = path))
    (hdel : ∀ i, i ∈ del' ↔ i ∈ del ∨ (i ∈ del' ∧ i.path = path))
    (hpath : path ∈ up'.map (·.path) ∨ path ∈ del'.map (·.path)) :
    Decided (r.conflict path) up' del' [] := by
  have hc := D.not_conflict ⟨hnew.1,hnew.2,by simp⟩
  have hmem : ∀ n, n ∈ (r.conflict path).conflicts ↔ n ∈ r.conflicts ∨ n = path := by
    intro n
    simp [Receipt.conflict]
  constructor
  · intro n s
    rw [show (r.conflict path).accepted = r.accepted from rfl,D.accepted n s]
    constructor
    · rintro ⟨i,hi,hp,hs,hn⟩
      refine ⟨i,(hup i).2 (.inl hi),hp,hs,?_⟩
      rw [hmem]
      rintro (h | rfl)
      · exact hn h
      · exact hnew.1 (List.mem_map.2 ⟨i,hi,hp⟩)
    · rintro ⟨i,hi,hp,hs,hn⟩
      rw [hmem,not_or] at hn
      rcases (hup i).1 hi with h | ⟨-,h⟩
      · exact ⟨i,h,hp,hs,hn.1⟩
      · exact absurd (hp.symm.trans h) hn.2
  · intro n s
    rw [show (r.conflict path).removed = r.removed from rfl,D.removed n s]
    constructor
    · rintro ⟨i,hi,hp,hs,hn,-⟩
      refine ⟨i,(hdel i).2 (.inl hi),hp,hs,?_,by simp⟩
      rw [hmem]
      rintro (h | rfl)
      · exact hn h
      · exact hnew.2 (List.mem_map.2 ⟨i,hi,hp⟩)
    · rintro ⟨i,hi,hp,hs,hn,-⟩
      rw [hmem,not_or] at hn
      rcases (hdel i).1 hi with h | ⟨-,h⟩
      · exact ⟨i,h,hp,hs,hn.1,by simp⟩
      · exact absurd (hp.symm.trans h) hn.2
  · intro n
    rw [show (r.conflict path).pruned = r.pruned from rfl,D.pruned n]
    simp
  · simp
  · intro n hn
    rcases (hmem n).1 hn with h | rfl
    · rcases D.conflicts n h with h | h | h
      · obtain ⟨i,hi,rfl⟩ := List.mem_map.1 h
        exact .inl (List.mem_map.2 ⟨i,(hup i).2 (.inl hi),rfl⟩)
      · obtain ⟨i,hi,rfl⟩ := List.mem_map.1 h
        exact .inr (.inl (List.mem_map.2 ⟨i,(hdel i).2 (.inl hi),rfl⟩))
      · cases h
    · rcases hpath with h | h
      · exact .inl h
      · exact .inr (.inl h)
  · simpa [Receipt.conflict,List.nodup_append,hc] using ⟨D.nodup,fun a ha h => hc (h ▸ ha)⟩
  · exact D.retired

theorem Decided.remove (D : Decided r up del []) (hup : path ∉ up.map (·.path))
    (hdel : path ∉ del.map (·.path)) :
    Decided (r.remove path sha) up (del ++ [⟨path,sha⟩]) [] := by
  have hc := D.not_conflict ⟨hup,hdel,by simp⟩
  constructor
  · exact D.accepted
  · intro n s
    rw [Receipt.remove,Std.ExtTreeMap.getElem?_insert]
    by_cases hn : path = n
    · subst hn
      simp only [compare_eq_iff_eq,if_true,Option.some.injEq]
      constructor
      · rintro rfl
        exact ⟨⟨path,sha⟩,by simp,rfl,rfl,hc,by simp⟩
      · rintro ⟨i,hi,hp,hs,-⟩
        rcases List.mem_append.1 hi with hi | hi
        · exact absurd (List.mem_map.2 ⟨i,hi,hp⟩) hdel
        · obtain rfl := List.mem_singleton.1 hi
          exact hs
    · simp only [compare_eq_iff_eq,if_neg hn,D.removed n s]
      constructor
      · rintro ⟨i,hi,h⟩
        exact ⟨i,List.mem_append_left _ hi,h⟩
      · rintro ⟨i,hi,hp,h⟩
        rcases List.mem_append.1 hi with hi | hi
        · exact ⟨i,hi,hp,h⟩
        · obtain rfl := List.mem_singleton.1 hi
          exact absurd hp hn
  · exact D.pruned
  · simp
  · intro n hn
    rcases D.conflicts n hn with h | h | h
    · exact .inl h
    · exact .inr (.inl (by simp [List.map_append,h]))
    · cases h
  · exact D.nodup
  · exact D.retired

/-- A retired root, none of whose deletions is in conflict. -/
theorem Decided.retire (D : Decided r up del roots) (hup : name ∉ up.map (·.path))
    (hdel : name ∉ del.map (·.path)) (hroots : name ∉ roots)
    (hall : ∀ i ∈ del, within (components name) (components i.path) → i.path ∉ r.conflicts) :
    Decided (r.retire name) up del (roots ++ [name]) := by
  have hc := D.not_conflict ⟨hup,hdel,hroots⟩
  constructor
  · exact D.accepted
  · intro n s
    rw [show (r.retire name).removed = r.removed from rfl,D.removed n s]
    constructor
    · rintro ⟨i,hi,hp,hs,hn,hr⟩
      refine ⟨i,hi,hp,hs,hn,fun root hroot hconf => ?_⟩
      rcases List.mem_append.1 hroot with h | h
      · exact hr root h hconf
      · obtain rfl := List.mem_singleton.1 h
        exact absurd hconf hc
    · rintro ⟨i,hi,hp,hs,hn,hr⟩
      exact ⟨i,hi,hp,hs,hn,fun root hroot => hr root (List.mem_append_left _ hroot)⟩
  · intro n
    simp only [Receipt.retire,List.mem_append,List.mem_singleton,D.pruned n]
    constructor
    · rintro (h | rfl)
      · exact ⟨.inl h.1,h.2⟩
      · exact ⟨.inr rfl,hc⟩
    · rintro ⟨h | rfl,hn⟩
      · exact .inl ⟨h,hn⟩
      · exact .inr rfl
  · intro root hroot hconf
    rcases List.mem_append.1 hroot with h | h
    · exact D.complete root h hconf
    · obtain rfl := List.mem_singleton.1 h
      exact hall
  · intro n hn
    rcases D.conflicts n hn with h | h | h
    · exact .inl h
    · exact .inr (.inl h)
    · exact .inr (.inr (List.mem_append_left _ h))
  · exact D.nodup
  · have hn : name ∉ r.pruned := fun h => hroots ((D.pruned name).1 h).1
    simpa [Receipt.retire,List.nodup_append] using ⟨D.retired,fun a ha h => hn (h ▸ ha)⟩

theorem getElem?_eraseAll (items : List Identity) (d : Dict) (n : String) :
    (items.foldl (fun d item => d.erase item.path) d)[n]? =
      if n ∈ items.map (·.path) then none else d[n]? := by
  induction items generalizing d with
  | nil => simp
  | cons item items ih =>
    rw [List.foldl_cons,ih,Std.ExtTreeMap.getElem?_erase]
    by_cases h : n ∈ items.map (·.path)
    · rw [if_pos h,if_pos (by simp [h])]
    · rw [if_neg h]
      by_cases hp : item.path = n
      · rw [if_pos (by simp [hp]),if_pos (by simp [hp])]
      · have hn : n ∉ (item::items).map (·.path) := by
          simp only [List.map_cons,List.mem_cons,not_or]
          exact ⟨Ne.symm hp,h⟩
        rw [if_neg (by simpa using hp),if_neg hn]

/-- A kept root takes its deletions back. -/
theorem Decided.keep (D : Decided r up del roots) (hup : name ∉ up.map (·.path))
    (hdel : name ∉ del.map (·.path)) (hroots : name ∉ roots) {items : List Identity}
    (hitems : ∀ i, i ∈ items ↔ i ∈ del ∧ within (components name) (components i.path)) :
    Decided (r.keep name items) up del (roots ++ [name]) := by
  have hc := D.not_conflict ⟨hup,hdel,hroots⟩
  have hmem : ∀ n, n ∈ (r.keep name items).conflicts ↔ n ∈ r.conflicts ∨ n = name := by
    intro n
    simp [Receipt.keep,Receipt.conflict]
  constructor
  · intro n s
    rw [show (r.keep name items).accepted = r.accepted from rfl,D.accepted n s]
    constructor
    · rintro ⟨i,hi,hp,hs,hn⟩
      refine ⟨i,hi,hp,hs,?_⟩
      rw [hmem]
      rintro (h | rfl)
      · exact hn h
      · exact hup (List.mem_map.2 ⟨i,hi,hp⟩)
    · rintro ⟨i,hi,hp,hs,hn⟩
      rw [hmem,not_or] at hn
      exact ⟨i,hi,hp,hs,hn.1⟩
  · intro n s
    rw [show (r.keep name items).removed =
      items.foldl (fun d item => d.erase item.path) r.removed from rfl,getElem?_eraseAll]
    constructor
    · intro h
      split at h
      · cases h
      · rename_i hni
        obtain ⟨i,hi,hp,hs,hn,hr⟩ := (D.removed n s).1 h
        refine ⟨i,hi,hp,hs,?_,?_⟩
        · rw [hmem]
          rintro (h | rfl)
          · exact hn h
          · exact hdel (List.mem_map.2 ⟨i,hi,hp⟩)
        · intro root hroot hconf
          rcases List.mem_append.1 hroot with hr' | hr'
          · rcases (hmem root).1 hconf with h' | rfl
            · exact hr root hr' h'
            · exact absurd hr' hroots
          · obtain rfl := List.mem_singleton.1 hr'
            by_contra hw
            rw [Bool.not_eq_false] at hw
            exact hni (List.mem_map.2 ⟨i,(hitems i).2 ⟨hi,by rw [hp]; exact hw⟩,hp⟩)
    · rintro ⟨i,hi,hp,hs,hn,hr⟩
      rw [hmem,not_or] at hn
      have hni : n ∉ items.map (·.path) := by
        intro h
        obtain ⟨j,hj,hjp⟩ := List.mem_map.1 h
        have hw := ((hitems j).1 hj).2
        rw [hjp,hr name (by simp) ((hmem name).2 (.inr rfl))] at hw
        cases hw
      rw [if_neg hni]
      refine (D.removed n s).2 ⟨i,hi,hp,hs,hn.1,fun root hroot hconf => ?_⟩
      exact hr root (List.mem_append_left _ hroot) ((hmem root).2 (.inl hconf))
  · intro n
    rw [show (r.keep name items).pruned = r.pruned from rfl,D.pruned n,hmem]
    simp only [List.mem_append,List.mem_singleton,not_or]
    constructor
    · rintro ⟨h,hn⟩
      exact ⟨.inl h,hn,fun he => hroots (he ▸ h)⟩
    · rintro ⟨h | rfl,hn,hne⟩
      · exact ⟨h,hn⟩
      · exact absurd rfl hne
  · intro root hroot hconf i hi hw
    rw [hmem,not_or] at hconf
    rw [hmem]
    rcases List.mem_append.1 hroot with h | h
    · rintro (hcon | he)
      · exact D.complete root h hconf.1 i hi hw hcon
      · exact hdel (List.mem_map.2 ⟨i,hi,he⟩)
    · exact absurd (List.mem_singleton.1 h) hconf.2
  · intro n hn
    rcases (hmem n).1 hn with h | rfl
    · rcases D.conflicts n h with h | h | h
      · exact .inl h
      · exact .inr (.inl h)
      · exact .inr (.inr (List.mem_append_left _ h))
    · exact .inr (.inr (by simp))
  · simpa [Receipt.keep,Receipt.conflict,List.nodup_append] using
      ⟨D.nodup,fun a ha h => hc (h ▸ ha)⟩
  · exact D.retired

end

section
variable {hash : List UInt8 → String} {allowed : List Path} {b : Batch} {W : Type}
  {M : World Req (fun q => Except Error (Rep q)) W}

/-- What every step of a loop preserves, the loop does. -/
theorem each_yields {α : Type} {step : α → Receipt → Io Receipt} {all : List α}
    {P : List α → Receipt → Prop}
    (hstep : ∀ done a rest r r', done ++ a::rest = all → P done r → (step a r).Yields M r' →
      P (done ++ [a]) r')
    (done rest : List α) {r r' : Receipt} (hall : done ++ rest = all) (hP : P done r)
    (h : (each step rest r).Yields M r') : P all r' := by
  induction rest generalizing done r with
  | nil =>
    obtain rfl := yields_pure h
    rwa [← hall,List.append_nil]
  | cons a rest ih =>
    obtain ⟨r₁,h₁,h₂⟩ := yields_bind h
    exact ih (done ++ [a]) (by simpa using hall) (hstep done a rest r r₁ hall hP h₁) h₂

theorem applyVerify_yields {item : Identity} {r r' : Receipt}
    (h : (applyVerify hash item r).Yields M r') :
    r' = r.accept item.path item.sha256 ∨ r' = r.conflict item.path := by
  obtain ⟨current,-,h⟩ := yields_bind h
  split at h
  · obtain ⟨parent,-,h⟩ := yields_bind h
    split at h
    · exact (yields_throw h).elim
    · obtain ⟨-,-,h⟩ := yields_bind h
      exact .inl (yields_pure h).symm
  · exact .inr (yields_pure h).symm

theorem applyFile_yields {item : Artifact} {r r' : Receipt}
    (h : (applyFile hash item r).Yields M r') :
    r' = r.accept item.path item.sha256 ∨ r' = r.conflict item.path := by
  obtain ⟨current,-,h⟩ := yields_bind h
  split at h
  · exact .inr (yields_pure h).symm
  obtain ⟨-,-,h⟩ := yields_bind h
  obtain ⟨pinned,-,h⟩ := yields_bind h
  split at h
  · exact .inr (yields_pure h).symm
  obtain ⟨-,-,h⟩ := yields_bind h
  exact .inl (yields_pure h).symm

theorem applyDelete_yields {blocked : List Path} {item : Identity} {r r' : Receipt}
    (h : (applyDelete hash blocked item r).Yields M r') :
    r' = r.remove item.path item.sha256 ∨ r' = r.conflict item.path := by
  unfold applyDelete at h
  split at h
  · exact .inr (yields_pure h).symm
  obtain ⟨current,-,h⟩ := yields_bind h
  split at h
  · exact .inr (yields_pure h).symm
  obtain ⟨parent,-,h⟩ := yields_bind h
  split at h
  · obtain ⟨pinned,-,h⟩ := yields_bind h
    split at h
    · exact .inr (yields_pure h).symm
    obtain ⟨-,-,h⟩ := yields_bind h
    exact .inl (yields_pure h).symm
  · split at h
    · exact (yields_throw h).elim
    · exact .inl (yields_pure h).symm

theorem applyPrune_yields {blocked : List Path} {name : String} {r r' : Receipt}
    (h : (applyPrune blocked b name r).Yields M r') :
    (r' = r.retire name ∧ removedAll r (descendants b (components name))) ∨
      r' = r.keep name (descendants b (components name)) := by
  simp only [applyPrune] at h
  split at h
  · rename_i hall
    obtain ⟨complete,-,h⟩ := yields_bind h
    split at h
    · exact .inl ⟨(yields_pure h).symm,hall.2⟩
    · exact .inr (yields_pure h).symm
  · exact .inr (yields_pure h).symm

/-- The identity an artifact is accepted under. -/
def Artifact.identity (item : Artifact) : Identity := ⟨item.path,item.sha256⟩

/-- Items on different paths have different names. -/
theorem names_nodup {α : Type} {name : α → String} {items : List α}
    (h : (items.map fun i => components (name i)).Nodup) : (items.map name).Nodup := by
  have hm : ((items.map name).map components).Nodup := by simpa [Function.comp_def] using h
  exact hm.of_map

/-- The names a batch decides on, in the order in which they are decided. -/
def Batch.names (b : Batch) : List String :=
  (b.verify ++ b.files.map Artifact.identity).map (·.path) ++ b.delete.map (·.path)

theorem Valid.names_nodup (V : Valid hash allowed b) : b.names.Nodup := by
  have hperm : (b.names.map components).Perm b.paths := by
    have h₁ : (b.names.map components) = b.verify.map (components ·.path) ++
        (b.files.map (components ·.path) ++ b.delete.map (components ·.path)) := by
      simp [Batch.names,Artifact.identity,Function.comp_def]
    have h₂ : b.paths.Perm ((b.verify.map (components ·.path) ++ b.delete.map (components ·.path)) ++
        b.files.map (components ·.path)) := by
      rw [Batch.paths,List.map_reverse,List.map_reverse,List.map_append]
      exact (List.reverse_perm _).append (List.reverse_perm _)
    rw [h₁]
    refine List.Perm.trans ?_ h₂.symm
    rw [List.append_assoc]
    exact (List.perm_append_comm).append_left _
  exact (hperm.nodup_iff.2 V.nodup).of_map

theorem Valid.prune_not_name (V : Valid hash allowed b) {name : String} (h : name ∈ b.prune) :
    name ∉ b.names := by
  have hscoped := (V.prune name h).2
  simp only [pruneScoped,Bool.and_eq_true,List.all_eq_true,List.any_eq_true] at hscoped
  obtain ⟨⟨item,hitem,hw⟩,hkeep⟩ := hscoped
  intro hname
  rcases List.mem_append.1 hname with hup | hdel
  · have hmem : components name ∈ b.files.map (components ·.path) ++
        b.verify.map (components ·.path) := by
      obtain ⟨i,hi,rfl⟩ := List.mem_map.1 hup
      rcases List.mem_append.1 hi with hi | hi
      · exact List.mem_append_right _ (List.mem_map.2 ⟨i,hi,rfl⟩)
      · obtain ⟨f,hf,rfl⟩ := List.mem_map.1 hi
        exact List.mem_append_left _ (List.mem_map.2 ⟨f,hf,rfl⟩)
    have hfalse := (hkeep _ hmem).1
    rw [within_iff.2 List.prefix_rfl] at hfalse
    cases hfalse
  · obtain ⟨i,hi,rfl⟩ := List.mem_map.1 hdel
    have hne : components item.path ≠ components i.path := by simpa using hw.2
    exact V.apart _ (mem_paths_delete hitem) (components i.path)
      (mem_properAncestors.2 ⟨within_iff.1 hw.1,hne.symm⟩) (mem_paths_delete hi)

theorem mem_descendants {root : Path} {i : Identity} :
    i ∈ descendants b root ↔ i ∈ b.delete ∧ within root (components i.path) := by
  simp [descendants]

theorem mem_pruneOrder_iff (V : Valid hash allowed b) {name : String} :
    name ∈ pruneOrder b (b.prune.map components).reverse ↔ name ∈ b.prune := by
  refine ⟨mem_pruneOrder,fun h => List.mem_filterMap.2 ⟨components name,?_,?_⟩⟩
  · simp only [Std.ExtTreeSet.mem_toList,Std.ExtTreeSet.mem_ofList,List.contains_iff_mem,
      List.mem_reverse]
    exact List.mem_map.2 ⟨name,h,rfl⟩
  · cases hf : b.prune.find? fun n => components n = components name with
    | none =>
      have hnone := List.find?_eq_none.1 hf name h
      simp at hnone
    | some n =>
      have hc : components n = components name := by simpa using List.find?_some hf
      have hn := List.mem_of_find?_eq_some hf
      rw [List.inj_on_of_nodup_map V.roots hn h hc]

theorem pruneOrder_nodup (pruning : List Path) : (pruneOrder b pruning).Nodup := by
  have hd := Std.ExtTreeSet.distinct_toList (t := Std.ExtTreeSet.ofList pruning)
  apply List.Nodup.filterMap
  · intro p q name hp hq
    have h₁ : components name = p := by simpa using List.find?_some hp
    have h₂ : components name = q := by simpa using List.find?_some hq
    exact h₁.symm.trans h₂
  · refine hd.imp ?_
    rintro p q hne rfl
    simp at hne

theorem notMem_of_nodup {α β : Type} {f : α → β} {done rest : List α} {a : α}
    (h : ((done ++ a::rest).map f).Nodup) : f a ∉ done.map f := by
  rw [List.map_append,List.map_cons] at h
  intro hmem
  exact (List.nodup_append.1 h).2.2 _ hmem _ (by simp) rfl

theorem mem_snoc {i j : Identity} {is : List Identity} :
    i ∈ is ++ [j] ↔ i ∈ is ∨ (i ∈ is ++ [j] ∧ i.path = j.path) := by
  constructor
  · intro h
    rcases List.mem_append.1 h with h' | h'
    · exact .inl h'
    · obtain rfl := List.mem_singleton.1 h'
      exact .inr ⟨h,rfl⟩
  · rintro (h | ⟨h,-⟩)
    · exact List.mem_append_left _ h
    · exact h

theorem Decided.uploaded {r r' : Receipt} {up : List Identity} {item : Identity}
    (D : Decided r up [] []) (hnew : item.path ∉ up.map (·.path))
    (h : r' = r.accept item.path item.sha256 ∨ r' = r.conflict item.path) :
    Decided r' (up ++ [item]) [] [] := by
  rcases h with rfl | rfl
  · exact D.accept hnew
  · exact D.conflict ⟨hnew,by simp⟩ (fun i => mem_snoc) (by simp) (.inl (by simp))

theorem Decided.deleted {r r' : Receipt} {up del : List Identity} {item : Identity}
    (D : Decided r up del []) (hup : item.path ∉ up.map (·.path))
    (hdel : item.path ∉ del.map (·.path))
    (h : r' = r.remove item.path item.sha256 ∨ r' = r.conflict item.path) :
    Decided r' up (del ++ [item]) [] := by
  rcases h with rfl | rfl
  · exact D.remove hup hdel
  · exact D.conflict ⟨hup,hdel⟩ (fun i => ⟨.inl,fun h => h.elim id And.left⟩) (fun i => mem_snoc) (.inr (by simp))

theorem Decided.rooted {r r' : Receipt} {up : List Identity} {roots : List String} {name : String}
    (D : Decided r up b.delete roots) (hup : name ∉ up.map (·.path))
    (hdel : name ∉ b.delete.map (·.path)) (hroots : name ∉ roots)
    (h : (r' = r.retire name ∧ removedAll r (descendants b (components name))) ∨
      r' = r.keep name (descendants b (components name))) :
    Decided r' up b.delete (roots ++ [name]) := by
  rcases h with ⟨rfl,hall⟩ | rfl
  · apply D.retire hup hdel hroots
    intro i hi hw
    have hr := List.all_eq_true.1 hall i (mem_descendants.2 ⟨hi,hw⟩)
    obtain ⟨-,-,-,-,hn,-⟩ := (D.removed i.path i.sha256).1 (of_decide_eq_true hr)
    exact hn
  · exact D.keep hup hdel hroots fun i => mem_descendants

/-- In any environment, the receipt an application returns decides every path of a
valid batch, and its retirement roots in the order of their paths. -/
theorem applyItems_yields (V : Valid hash allowed b) {blocked pruning : List Path}
    {digest : String} {r : Receipt}
    (h : (applyItems hash b blocked pruning ⟨digest,∅,∅,[],[]⟩).Yields M r) :
    Decided r (b.verify ++ b.files.map Artifact.identity) b.delete (pruneOrder b pruning) ∧
      r.batchSha256 = digest := by
  have hnames := V.names_nodup
  rw [Batch.names] at hnames
  have hup := (List.nodup_append.1 hnames).1
  have hdel := (List.nodup_append.1 hnames).2.1
  have hapart := (List.nodup_append.1 hnames).2.2
  obtain ⟨r₁,h₁,h⟩ := yields_bind h
  obtain ⟨r₂,h₂,h⟩ := yields_bind h
  obtain ⟨r₃,h₃,h₄⟩ := yields_bind h
  have hverify : Decided r₁ b.verify [] [] ∧ r₁.batchSha256 = digest := by
    refine each_yields (P := fun done r => Decided r done [] [] ∧ r.batchSha256 = digest) ?_ [] _
      rfl ⟨decided_start digest,rfl⟩ h₁
    rintro done item rest r r' hall ⟨D,hd⟩ hs
    have hs := applyVerify_yields hs
    refine ⟨D.uploaded ?_ hs,by rcases hs with rfl | rfl <;> exact hd⟩
    rw [← hall,List.append_assoc,List.cons_append] at hup
    exact notMem_of_nodup hup
  have hfiles : Decided r₂ (b.verify ++ b.files.map Artifact.identity) [] [] ∧
      r₂.batchSha256 = digest := by
    refine each_yields (P := fun done r => Decided r (b.verify ++ done.map Artifact.identity) [] [] ∧
      r.batchSha256 = digest) ?_ [] _ rfl (by simpa using hverify) h₂
    rintro done item rest r r' hall ⟨D,hd⟩ hs
    have hs := applyFile_yields hs
    refine ⟨?_,by rcases hs with rfl | rfl <;> exact hd⟩
    have hnew : item.identity.path ∉ (b.verify ++ done.map Artifact.identity).map (·.path) := by
      have he : b.verify ++ b.files.map Artifact.identity =
          (b.verify ++ done.map Artifact.identity) ++
            item.identity::rest.map Artifact.identity := by
        rw [← hall]
        simp
      rw [he] at hup
      exact notMem_of_nodup hup
    have hD := D.uploaded hnew hs
    simpa using hD
  have hdeletes : Decided r₃ (b.verify ++ b.files.map Artifact.identity) b.delete [] ∧
      r₃.batchSha256 = digest := by
    refine each_yields (P := fun done r =>
      Decided r (b.verify ++ b.files.map Artifact.identity) done [] ∧ r.batchSha256 = digest) ?_ []
      _ rfl hfiles h₃
    rintro done item rest r r' hall ⟨D,hd⟩ hs
    have hs := applyDelete_yields hs
    refine ⟨D.deleted ?_ ?_ hs,by rcases hs with rfl | rfl <;> exact hd⟩
    · intro hmem
      refine hapart _ hmem item.path ?_ rfl
      rw [← hall]
      simp
    · rw [← hall] at hdel
      exact notMem_of_nodup hdel
  refine each_yields (P := fun done r =>
    Decided r (b.verify ++ b.files.map Artifact.identity) b.delete done ∧ r.batchSha256 = digest) ?_
    [] _ rfl hdeletes h₄
  rintro done name rest r r' hall ⟨D,hd⟩ hs
  have hs := applyPrune_yields hs
  have horder : name ∈ pruneOrder b pruning := by
    rw [← hall]
    simp
  have hmem : name ∈ b.prune := mem_pruneOrder horder
  have hnot := V.prune_not_name hmem
  rw [Batch.names,List.mem_append,not_or] at hnot
  refine ⟨D.rooted hnot.1 hnot.2 ?_ hs,by rcases hs with ⟨rfl,-⟩ | rfl <;> exact hd⟩
  have hn := pruneOrder_nodup (b := b) pruning
  rw [← hall] at hn
  have hnn := notMem_of_nodup (f := id) (by simpa using hn)
  simpa using hnn

end

/-! ## Dictionaries -/

theorem mem_dict {d : Dict} {n : String} : n ∈ d ↔ ∃ s, d[n]? = some s := by
  rw [Std.ExtTreeMap.mem_iff_isSome_getElem?,Option.isSome_iff_exists]

theorem identities_distinct {items : List Identity} (hn : (items.map (·.path)).Nodup) :
    (items.map fun item => (item.path,item.sha256)).Pairwise
      fun a b => ¬ compare a.1 b.1 = .eq := by
  refine List.pairwise_map.2 ((List.pairwise_map.1 hn).imp ?_)
  intro i j hne he
  exact hne (by simpa using he)

theorem getElem?_identities {items : List Identity} (hn : (items.map (·.path)).Nodup)
    (n s : String) :
    (identities items)[n]? = some s ↔ ∃ i ∈ items, i.path = n ∧ i.sha256 = s := by
  constructor
  · intro h
    have hmem : n ∈ identities items := mem_dict.2 ⟨s,h⟩
    rw [identities,Std.ExtTreeMap.mem_ofList,List.contains_iff_mem,List.map_map] at hmem
    obtain ⟨i,hi,hp⟩ := List.mem_map.1 hmem
    have hp' : i.path = n := hp
    have hget := Std.ExtTreeMap.getElem?_ofList_of_mem (k := n)
      (Std.compare_self (a := n)) (identities_distinct hn) (List.mem_map.2 ⟨i,hi,by rw [hp']⟩)
    rw [identities,hget] at h
    exact ⟨i,hi,hp',Option.some.inj h⟩
  · rintro ⟨i,hi,rfl,rfl⟩
    exact Std.ExtTreeMap.getElem?_ofList_of_mem (by simp) (identities_distinct hn)
      (List.mem_map.2 ⟨i,hi,rfl⟩)

theorem mem_identities {items : List Identity} {n : String} :
    n ∈ identities items ↔ n ∈ items.map (·.path) := by
  rw [identities,Std.ExtTreeMap.mem_ofList,List.contains_iff_mem,List.map_map]
  rfl

theorem getElem?_insertAll (d e : Dict) (n : String) :
    (d.insertMany e.toList)[n]? = (e[n]?).or d[n]? := by
  cases he : e[n]? with
  | none =>
    apply Std.ExtTreeMap.getElem?_insertMany_list_of_contains_eq_false
    rw [Std.ExtTreeMap.map_fst_toList_eq_keys,List.contains_eq_mem,decide_eq_false_iff_not,
      Std.ExtTreeMap.mem_keys,mem_dict]
    simp [he]
  | some s =>
    exact Std.ExtTreeMap.getElem?_insertMany_list_of_mem (by simp)
      Std.ExtTreeMap.distinct_keys_toList (Std.ExtTreeMap.mem_toList_iff_getElem?_eq_some.2 he)

/-- Removing bindings that are all retained succeeds. -/
theorem forget_ok {rest : List (String × String)} {known : Dict}
    (hdistinct : rest.Pairwise fun a b => ¬ compare a.1 b.1 = .eq)
    (hall : ∀ e ∈ rest, known[e.1]? = some e.2) :
    ∃ known', forget rest known = .ok known' ∧
      ∀ n, known'[n]? = if n ∈ rest.map Prod.fst then none else known[n]? := by
  induction rest generalizing known with
  | nil => exact ⟨known,rfl,by simp⟩
  | cons e rest ih =>
    obtain ⟨path,sha⟩ := e
    obtain ⟨hne,hrest⟩ := List.pairwise_cons.1 hdistinct
    have hpath : known[path]? = some sha := hall (path,sha) (by simp)
    have hall' : ∀ e ∈ rest, (known.erase path)[e.1]? = some e.2 := by
      intro e he
      rw [Std.ExtTreeMap.getElem?_erase,if_neg (hne e he)]
      exact hall e (List.mem_cons_of_mem _ he)
    obtain ⟨known',hok,hget⟩ := ih hrest hall'
    refine ⟨known',by simp [forget,hpath,hok],fun n => ?_⟩
    rw [hget n,Std.ExtTreeMap.getElem?_erase]
    by_cases hn : n ∈ rest.map Prod.fst
    · rw [if_pos hn,if_pos (by simp [hn])]
    · rw [if_neg hn]
      by_cases hp : path = n
      · rw [if_pos (by simp [hp]),if_pos (by simp [hp])]
      · rw [if_neg (by simpa using hp),if_neg]
        simp only [List.map_cons,List.mem_cons,not_or]
        exact ⟨Ne.symm hp,hn⟩

theorem keys_nodup (d : Dict) : d.keys.Nodup := by
  refine Std.ExtTreeMap.distinct_keys.imp ?_
  rintro a b hne rfl
  simp at hne

/-- Distinct names of which some are known and the others few fit a bound. -/
theorem length_le_of_known {names : List String} {known : Dict} {limit : ℕ} (hn : names.Nodup)
    (hnew : (names.filter (· ∉ known)).length ≤ limit - known.size) (hk : known.size ≤ limit) :
    names.length ≤ limit := by
  have hknown : (names.filter (· ∈ known)).length ≤ known.size := by
    rw [← Std.ExtTreeMap.length_keys]
    apply List.Subperm.length_le
    apply (hn.filter _).subperm
    intro n hmem
    simpa using (List.mem_filter.1 hmem).2
  have hsum := List.length_eq_length_filter_add (l := names) (fun n => decide (n ∈ known))
  have he : names.filter (fun n => !decide (n ∈ known)) = names.filter (· ∉ known) := by
    congr 1
    funext n
    simp
  rw [he] at hsum
  omega

/-! ## The checkpoint adopts it -/

section
variable {hash : List UInt8 → String} {allowed : List Path} {b : Batch}

theorem mem_uploads {i : Identity} :
    i ∈ b.uploads ↔ i ∈ b.verify ++ b.files.map Artifact.identity := by
  simp only [Batch.uploads,List.mem_append]
  exact or_comm

theorem Valid.uploads_nodup (V : Valid hash allowed b) : (b.uploads.map (·.path)).Nodup := by
  have h := (List.nodup_append.1 V.names_nodup).1
  refine (List.Perm.nodup_iff ?_).1 h
  refine List.Perm.map _ ?_
  exact List.perm_append_comm

theorem Valid.delete_nodup (V : Valid hash allowed b) : (b.delete.map (·.path)).Nodup :=
  (List.nodup_append.1 V.names_nodup).2.1

/-- Two retirement roots above one path are one root. -/
theorem Valid.root_unique (V : Valid hash allowed b) {m n : String} (hm : m ∈ b.prune)
    (hn : n ∈ b.prune) {p : Path} (hmp : within (components m) p) (hnp : within (components n) p) :
    m = n := by
  have hpre : components m = components n := by
    by_contra hne
    rcases List.prefix_or_prefix_of_prefix (within_iff.1 hmp) (within_iff.1 hnp) with h | h
    · exact V.disjoint _ (List.mem_map.2 ⟨n,hn,rfl⟩) _ (mem_properAncestors.2 ⟨h,hne⟩)
        (List.mem_map.2 ⟨m,hm,rfl⟩)
    · exact V.disjoint _ (List.mem_map.2 ⟨m,hm,rfl⟩) _ (mem_properAncestors.2 ⟨h,Ne.symm hne⟩)
        (List.mem_map.2 ⟨n,hn,rfl⟩)
  exact List.inj_on_of_nodup_map V.roots hm hn hpre

/-- What has been decided about every path is a consistent receipt. -/
theorem consistent_of_decided (V : Valid hash allowed b) {r : Receipt} {roots : List String}
    (hroots : ∀ n, n ∈ roots ↔ n ∈ b.prune)
    (D : Decided r (b.verify ++ b.files.map Artifact.identity) b.delete roots) :
    consistent b r = true := by
  have hacc := getElem?_identities V.uploads_nodup
  have hrem := getElem?_identities V.delete_nodup
  have hremoved : ∀ i ∈ b.delete, i.path ∉ r.conflicts →
      (∀ root ∈ b.prune, root ∈ r.conflicts → within (components root) (components i.path) = false) →
      r.removed[i.path]? = some i.sha256 := fun i hi hn hr =>
    (D.removed _ _).2 ⟨i,hi,rfl,rfl,hn,fun root hroot => hr root ((hroots root).1 hroot)⟩
  simp only [consistent,Bool.and_eq_true,List.all_eq_true,Bool.or_eq_true,decide_eq_true_eq]
  refine ⟨⟨⟨⟨⟨⟨⟨⟨⟨D.nodup,D.retired⟩,?_⟩,?_⟩,?_⟩,?_⟩,?_⟩,?_⟩,?_⟩,?_⟩
  · rintro ⟨n,s⟩ he
    obtain ⟨i,hi,hp,hs,hn⟩ := (D.accepted n s).1 (Std.ExtTreeMap.mem_toList_iff_getElem?_eq_some.1 he)
    exact ⟨(hacc n s).2 ⟨i,mem_uploads.2 hi,hp,hs⟩,hn⟩
  · rintro ⟨n,s⟩ he
    obtain ⟨i,hi,hp,hs,hn,-⟩ := (D.removed n s).1 (Std.ExtTreeMap.mem_toList_iff_getElem?_eq_some.1 he)
    exact ⟨(hrem n s).2 ⟨i,hi,hp,hs⟩,hn⟩
  · intro n hn
    obtain ⟨hr,hc⟩ := (D.pruned n).1 hn
    exact ⟨(hroots n).1 hr,hc⟩
  · intro n hn
    rcases D.conflicts n hn with h | h | h
    · obtain ⟨i,hi,hp⟩ := List.mem_map.1 h
      exact .inl (.inl (mem_identities.2 (List.mem_map.2 ⟨i,mem_uploads.2 hi,hp⟩)))
    · exact .inl (.inr (mem_identities.2 h))
    · exact .inr ((hroots n).1 h)
  · rintro ⟨n,s⟩ he
    obtain ⟨i,hi,hp,hs⟩ := (hacc n s).1 (Std.ExtTreeMap.mem_toList_iff_getElem?_eq_some.1 he)
    by_cases hc : n ∈ r.conflicts
    · exact .inr hc
    · exact .inl ((D.accepted n s).2 ⟨i,mem_uploads.1 hi,hp,hs,hc⟩)
  · rintro ⟨n,s⟩ he
    obtain ⟨i,hi,rfl,rfl⟩ := (hrem n s).1 (Std.ExtTreeMap.mem_toList_iff_getElem?_eq_some.1 he)
    by_cases hc : i.path ∈ r.conflicts
    · exact .inl (.inr hc)
    by_cases hroot : rootConflict b r.conflicts i.path
    · exact .inr hroot
    · refine .inl (.inl (hremoved i hi hc fun root hr hconf => ?_))
      by_contra hw
      rw [Bool.not_eq_false] at hw
      refine hroot (List.any_eq_true.2 ⟨root,hr,?_⟩)
      simp [hconf,hw]
  · intro n hn
    by_cases hc : n ∈ r.conflicts
    · exact .inr hc
    · exact .inl ((D.pruned n).2 ⟨(hroots n).2 hn,hc⟩)
  · intro root hroot i hi
    obtain ⟨hdel,hw⟩ := mem_descendants.1 hi
    constructor
    · by_cases hp : root ∈ r.pruned
      · have hc := ((D.pruned root).1 hp).2
        refine .inr (hremoved i hdel (D.complete root ((hroots root).2 hroot) hc i hdel hw) ?_)
        intro root' hr' hconf
        by_contra hw'
        rw [Bool.not_eq_false] at hw'
        obtain rfl := V.root_unique hroot hr' hw hw'
        exact hc hconf
      · exact .inl hp
    · by_cases hc : root ∈ r.conflicts
      · refine .inr fun hmem => ?_
        obtain ⟨s,hs⟩ := mem_dict.1 hmem
        obtain ⟨-,-,-,-,-,hfalse⟩ := (D.removed _ _).1 hs
        rw [hfalse root ((hroots root).2 hroot) hc] at hw
        cases hw
      · exact .inl hc

end

end Evidence
end CanixToolbelt
