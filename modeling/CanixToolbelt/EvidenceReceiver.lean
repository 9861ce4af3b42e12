import CanixToolbelt.Evidence
import CanixToolbelt.Fallible

/-! Applying a batch changes only what the batch names and the receiver still holds as
the batch expects it, at every moment of the application. -/
namespace CanixToolbelt
namespace Evidence
open Effect FileTree Script

/-! ## What validation establishes -/

/-- What a monad's computations may return. -/
structure Outcome (m : Type → Type) [Monad m] where
  ok : {α : Type} → m α → α → Prop
  pure : ∀ {α : Type} {a b : α}, ok (Pure.pure a) b → a = b
  bind : ∀ {α β : Type} {x : m α} {f : α → m β} {b : β}, ok (x >>= f) b →
    ∃ a, ok x a ∧ ok (f a) b

def exceptOutcome : Outcome (Except Error) where
  ok := fun x a => x = .ok a
  pure := fun h => by cases h; rfl
  bind := by
    rintro α β (e | a) f b h
    · cases h
    · exact ⟨a,rfl,h⟩

def ioOutcome {W : Type} (M : World Req (fun q => Except Error (Rep q)) W) : Outcome Io where
  ok := Script.Yields M
  pure := yields_pure
  bind := yields_bind

/-- The paths a batch decides on. -/
def Batch.paths (b : Batch) : List Path :=
  (b.verify ++ b.delete).reverse.map (components ·.path) ++ b.files.reverse.map (components ·.path)

variable (hash : List UInt8 → String) (allowed : List Path)

/-- What every validated batch satisfies. -/
structure Valid (b : Batch) : Prop where
  files : ∀ item ∈ b.files, relative allowed (components item.path) = .ok () ∧
    hash item.bytes = item.sha256
  identities : ∀ item ∈ b.verify ++ b.delete, relative allowed (components item.path) = .ok () ∧
    validDigest item.sha256
  nodup : b.paths.Nodup
  apart : ∀ p ∈ b.paths, ∀ q ∈ properAncestors p, q ∉ b.paths
  prune : ∀ name ∈ b.prune, relative allowed (components name) = .ok () ∧
    pruneScoped b (components name)
  roots : (b.prune.map components).Nodup
  disjoint : ∀ p ∈ b.prune.map components, ∀ q ∈ properAncestors p, q ∉ b.prune.map components

section
variable {hash allowed}

theorem admitFile_ok {item : Artifact} {t t' : Tally} (h : admitFile hash item t = .ok t') :
    components item.path ∉ t.paths ∧ hash item.bytes = item.sha256 ∧
      t'.paths = components item.path::t.paths := by
  simp only [admitFile] at h
  split at h
  · cases h
  · rename_i hc
    cases h
    simp only [not_or,not_not] at hc
    exact ⟨hc.1,hc.2.2.2.1,rfl⟩

theorem admitIdentity_ok {item : Identity} {t t' : Tally} (h : admitIdentity item t = .ok t') :
    components item.path ∉ t.paths ∧ validDigest item.sha256 ∧
      t'.paths = components item.path::t.paths := by
  simp only [admitIdentity] at h
  split at h
  · cases h
  · rename_i hc
    cases h
    simp only [not_or,not_not] at hc
    exact ⟨hc.1,hc.2.1,rfl⟩

theorem validatePrune_ok {b : Batch} {names : List String} {roots roots' : List Path}
    (h : validatePrune allowed b roots names = .ok roots') :
    roots' = (names.map components).reverse ++ roots ∧ (roots.Nodup → roots'.Nodup) ∧
      (∀ name ∈ names, relative allowed (components name) = .ok () ∧
        pruneScoped b (components name)) ∧
      ∀ p ∈ roots', ∀ q ∈ properAncestors p, q ∉ roots' := by
  induction names generalizing roots with
  | nil =>
    simp only [validatePrune] at h
    split at h
    · cases h
    · rename_i hc
      cases h
      exact ⟨by simp,id,by simp,by simpa using hc⟩
  | cons name names ih =>
    obtain ⟨⟨⟩,hrel,h⟩ := Fallible.bind_ok h
    split at h
    · cases h
    · rename_i hc
      simp only [not_or,not_not] at hc
      obtain ⟨he,hn,hall,hd⟩ := ih h
      refine ⟨by simp [he],fun hr => hn (List.nodup_cons.2 ⟨hc.1,hr⟩),?_,hd⟩
      intro name' hname'
      rcases List.mem_cons.1 hname' with rfl | hmem
      · exact ⟨hrel,hc.2⟩
      · exact hall name' hmem

variable {m : Type → Type} [Monad m] {probe : Probe m} (O : Outcome m)

theorem blockedRoots_ok {names : List String} {blocked blocked' : List Path}
    (h : O.ok (blockedRoots probe allowed names blocked) blocked') :
    ∀ p ∈ blocked', p ∈ blocked ∨ p ∈ names.map components := by
  induction names generalizing blocked with
  | nil =>
    obtain rfl := O.pure h
    exact fun p hp => .inl hp
  | cons name names ih =>
    obtain ⟨-,-,h⟩ := O.bind h
    obtain ⟨b,-,h⟩ := O.bind h
    intro p hp
    rcases ih h p hp with hb | hn
    · split at hb
      · rcases List.mem_cons.1 hb with rfl | hb
        · exact .inr (by simp)
        · exact .inl hb
      · exact .inl hb
    · exact .inr (List.mem_cons_of_mem _ hn)

theorem blockedDeletes_ok {roots : List Path} {items : List Identity} {blocked blocked' : List Path}
    (h : O.ok (blockedDeletes probe allowed roots items blocked) blocked') :
    ∀ p ∈ blocked', p ∈ blocked ∨ p ∈ roots := by
  induction items generalizing blocked with
  | nil =>
    obtain rfl := O.pure h
    exact fun p hp => .inl hp
  | cons item items ih =>
    obtain ⟨-,-,h⟩ := O.bind h
    split at h
    · exact ih h
    · rename_i root hroot
      obtain ⟨b,-,h⟩ := O.bind h
      intro p hp
      rcases ih h p hp with hb | hn
      · split at hb
        · rcases List.mem_cons.1 hb with rfl | hb
          · exact .inr (by simpa using List.find?_some hroot)
          · exact .inl hb
        · exact .inl hb
      · exact .inr hn

variable (hlift : ∀ {α : Type} {r : Except Error α} {a : α}, O.ok (probe.lift r) a → r = .ok a)

include hlift

theorem validateFiles_ok {items : List Artifact} {t t' : Tally}
    (h : O.ok (validateFiles hash probe allowed items t) t') :
    (∀ item ∈ items, relative allowed (components item.path) = .ok () ∧
        hash item.bytes = item.sha256) ∧
      t'.paths = items.reverse.map (components ·.path) ++ t.paths ∧
      (t.paths.Nodup → t'.paths.Nodup) := by
  induction items generalizing t with
  | nil =>
    obtain rfl := O.pure h
    exact ⟨by simp,by simp,id⟩
  | cons item items ih =>
    obtain ⟨⟨⟩,hrel,h⟩ := O.bind h
    obtain ⟨-,-,h⟩ := O.bind h
    obtain ⟨t₁,hnext,h⟩ := O.bind h
    obtain ⟨hnew,hhash,hpaths⟩ := admitFile_ok (hlift hnext)
    obtain ⟨hall,hp,hn⟩ := ih h
    refine ⟨?_,by simp [hp,hpaths],?_⟩
    · intro item' hitem'
      rcases List.mem_cons.1 hitem' with rfl | hmem
      · exact ⟨hlift hrel,hhash⟩
      · exact hall item' hmem
    · intro ht
      apply hn
      rw [hpaths]
      exact List.nodup_cons.2 ⟨hnew,ht⟩

theorem validateIdentities_ok {blocked : List Path} {items : List Identity} {t t' : Tally}
    (h : O.ok (validateIdentities probe allowed blocked items t) t') :
    (∀ item ∈ items, relative allowed (components item.path) = .ok () ∧
        validDigest item.sha256) ∧
      t'.paths = items.reverse.map (components ·.path) ++ t.paths ∧
      (t.paths.Nodup → t'.paths.Nodup) := by
  induction items generalizing t with
  | nil =>
    obtain rfl := O.pure h
    exact ⟨by simp,by simp,id⟩
  | cons item items ih =>
    obtain ⟨⟨⟩,hrel,h⟩ := O.bind h
    obtain ⟨-,-,h⟩ := O.bind h
    obtain ⟨t₁,hnext,h⟩ := O.bind h
    obtain ⟨hnew,hdigest,hpaths⟩ := admitIdentity_ok (hlift hnext)
    obtain ⟨hall,hp,hn⟩ := ih h
    refine ⟨?_,by simp [hp,hpaths],?_⟩
    · intro item' hitem'
      rcases List.mem_cons.1 hitem' with rfl | hmem
      · exact ⟨hlift hrel,hdigest⟩
      · exact hall item' hmem
    · intro ht
      apply hn
      rw [hpaths]
      exact List.nodup_cons.2 ⟨hnew,ht⟩

/-- Validation succeeds on valid batches only, and its blocked roots are retirement roots. -/
theorem validateBatch_ok {b : Batch} {blocked pruning : List Path}
    (h : O.ok (validateBatch hash probe allowed b) (blocked,pruning)) :
    Valid hash allowed b ∧ pruning = (b.prune.map components).reverse ∧
      ∀ p ∈ blocked, p ∈ b.prune.map components := by
  obtain ⟨size,-,h⟩ := O.bind h
  obtain ⟨blocked₁,hb₁,h⟩ := O.bind h
  obtain ⟨blocked₂,hb₂,h⟩ := O.bind h
  obtain ⟨tally₁,hfiles,h⟩ := O.bind h
  obtain ⟨tally₂,hids,h⟩ := O.bind h
  obtain ⟨hf,hp₁,hn₁⟩ := validateFiles_ok O hlift hfiles
  obtain ⟨hi,hp₂,hn₂⟩ := validateIdentities_ok O hlift hids
  have hpaths : tally₂.paths = b.paths := by simp [hp₂,hp₁,Batch.paths]
  split at h
  · cases hlift h
  · rename_i hapart
    obtain ⟨pruning',hprune,h⟩ := O.bind h
    obtain ⟨rfl,rfl⟩ := Prod.mk.inj (O.pure h)
    obtain ⟨he,hr,hs,hd⟩ := validatePrune_ok (hlift hprune)
    rw [List.append_nil] at he
    subst he
    constructor
    · constructor
      · exact hf
      · exact hi
      · rw [← hpaths]
        exact hn₂ (hn₁ List.nodup_nil)
      · rw [← hpaths]
        simpa using hapart
      · exact hs
      · simpa using hr List.nodup_nil
      · simpa using hd
    · refine ⟨rfl,fun p hp => ?_⟩
      rcases blockedDeletes_ok O hb₂ p hp with hb | hb
      · rcases blockedRoots_ok O hb₁ p hb with hn | hn
        · cases hn
        · exact hn
      · exact hb

end

theorem noProbe_lift {α : Type} {r : Except Error α} {a : α} (h : noProbe.lift r = .ok a) :
    r = .ok a := h

theorem checked_yields {W α : Type} {M : World Req (fun q => Except Error (Rep q)) W}
    {r : Except Error α} {a : α} (h : (checked r).Yields M a) : r = .ok a := by
  cases r with
  | error e => cases yields_throw h
  | ok a' => rw [yields_pure h]

theorem receiverProbe_lift {W α : Type} {M : World Req (fun q => Except Error (Rep q)) W}
    {r : Except Error α} {a : α} (h : (ioOutcome M).ok ((receiverProbe hash).lift r) a) : r = .ok a := checked_yields h

/-! ## What an application may do -/

/-- A receiver path that holds what an artifact expects there. -/
def Expected (t : Tree) (item : Artifact) : Prop :=
  match item.expected with
  | none => look t (components item.path) = none
  | some sha => ∃ old, look t (components item.path) = some (.file old) ∧ hash old = sha

/-- A receiver path that holds the bytes an identity is about. -/
def Holds (t : Tree) (item : Identity) : Prop :=
  ∃ old, look t (components item.path) = some (.file old) ∧ hash old = item.sha256

/-- The changes a batch permits at the moment they are made.  Removing a directory
besides needs it to be empty, which the request itself checks. -/
inductive Permitted (b : Batch) (t : Tree) : Req → Prop
  | write {item : Artifact} (h : item ∈ b.files)
      (hs : relative allowed (components item.path) = .ok ()) (he : Expected hash t item) :
      Permitted b t (.write (components item.path) item.bytes)
  | mkdir {item : Artifact} {p : Path} (h : item ∈ b.files)
      (hs : relative allowed (components item.path) = .ok ()) (hn : item.expected = none)
      (hp : p ∈ properAncestors (components item.path)) : Permitted b t (.mkdir p)
  | unlink {item : Identity} (h : item ∈ b.delete)
      (hs : relative allowed (components item.path) = .ok ()) (hh : Holds hash t item) :
      Permitted b t (.unlink (components item.path))
  | rmdir {name : String} {p : Path} (h : name ∈ b.prune)
      (hs : relative allowed (components name) = .ok ()) (hp : within (components name) p)
      (hd : look t p = some .directory) (hg : look t (p ++ [".git"]) = none) :
      Permitted b t (.rmdir p)

/-- How a path may have changed since the application began. -/
inductive Change (b : Batch) (t₀ t : Tree) : Path → Prop
  | same {p : Path} (h : look t p = look t₀ p) : Change b t₀ t p
  | written {item : Artifact} (h : item ∈ b.files)
      (hs : relative allowed (components item.path) = .ok ()) (he : Expected hash t₀ item)
      (ht : look t (components item.path) = some (.file item.bytes)) :
      Change b t₀ t (components item.path)
  | created {item : Artifact} {p : Path} (h : item ∈ b.files)
      (hs : relative allowed (components item.path) = .ok ()) (hn : item.expected = none)
      (hp : p ∈ properAncestors (components item.path)) (h₀ : look t₀ p = none)
      (ht : look t p = some .directory) : Change b t₀ t p
  | deleted {item : Identity} (h : item ∈ b.delete)
      (hs : relative allowed (components item.path) = .ok ()) (hh : Holds hash t₀ item)
      (ht : look t (components item.path) = none) : Change b t₀ t (components item.path)
  | retired {name : String} {p : Path} (h : name ∈ b.prune)
      (hs : relative allowed (components name) = .ok ()) (hp : within (components name) p)
      (h₀ : look t₀ p = some .directory) (ht : look t p = none) : Change b t₀ t p

/-- Every path is as it was, or changed as the batch asks. -/
def Framed (b : Batch) (t₀ t : Tree) : Prop := ∀ p, Change hash allowed b t₀ t p

section
variable {hash allowed} {b : Batch} {t₀ t t' : Tree}

theorem framed_refl : Framed hash allowed b t₀ t₀ := fun _ => .same rfl

theorem mem_paths_file {item : Artifact} (h : item ∈ b.files) : components item.path ∈ b.paths := by
  simp only [Batch.paths,List.mem_append,List.mem_map,List.mem_reverse]
  exact .inr ⟨item,h,rfl⟩

theorem mem_paths_delete {item : Identity} (h : item ∈ b.delete) :
    components item.path ∈ b.paths := by
  simp only [Batch.paths,List.mem_append,List.mem_map,List.mem_reverse]
  exact .inl ⟨item,.inr h,rfl⟩

theorem relative_ne_nil {p : Path} (h : relative allowed p = .ok ()) : p ≠ [] := by
  rintro rfl
  simp [relative,scopedRelative,bind,Except.bind,invalid] at h

/-- Two artifacts of one path are one artifact. -/
theorem Valid.file_unique (V : Valid hash allowed b) {i j : Artifact} (hi : i ∈ b.files)
    (hj : j ∈ b.files) (h : components i.path = components j.path) : i = j := by
  have hn := (List.nodup_append.1 V.nodup).2.1
  exact List.inj_on_of_nodup_map hn (List.mem_reverse.2 hi) (List.mem_reverse.2 hj) h

theorem Valid.file_ne_delete (V : Valid hash allowed b) {i : Artifact} {j : Identity}
    (hi : i ∈ b.files) (hj : j ∈ b.delete) : components i.path ≠ components j.path := by
  intro h
  have hd := (List.nodup_append.1 V.nodup).2.2
  refine hd (components j.path) ?_ (components i.path) ?_ h.symm
  · exact List.mem_map.2 ⟨j,List.mem_reverse.2 (List.mem_append_right _ hj),rfl⟩
  · exact List.mem_map.2 ⟨i,List.mem_reverse.2 hi,rfl⟩

/-- No artifact lies at or below a retirement root, or above one. -/
theorem Valid.file_not_within (V : Valid hash allowed b) {i : Artifact} {name : String}
    (hi : i ∈ b.files) (hn : name ∈ b.prune) : within (components name) (components i.path) = false := by
  have hp := (V.prune name hn).2
  simp only [pruneScoped,Bool.and_eq_true,List.all_eq_true] at hp
  have h := hp.2 (components i.path)
    (List.mem_append_left _ (List.mem_map.2 ⟨i,hi,rfl⟩))
  simp only [Bool.not_eq_true'] at h
  exact h.1

theorem within_of_ancestor {root p q : Path} (h : within root p) (hp : p ∈ properAncestors q) :
    within root q := by
  have hq := (mem_properAncestors.1 hp).1
  exact List.isPrefixOf_iff_prefix.2 ((List.isPrefixOf_iff_prefix.1 h).trans hq)

theorem Change.congr {p : Path} (h : Change hash allowed b t₀ t p) (he : look t' p = look t p) :
    Change hash allowed b t₀ t' p := by
  cases h with
  | same h => exact .same (he.trans h)
  | written h hs hx ht => exact .written h hs hx (he.trans ht)
  | created h hs hn hp h₀ ht => exact .created h hs hn hp h₀ (he.trans ht)
  | deleted h hs hh ht => exact .deleted h hs hh (he.trans ht)
  | retired h hs hp h₀ ht => exact .retired h hs hp h₀ (he.trans ht)

/-- Writing at an expected path keeps the frame. -/
theorem framed_write (V : Valid hash allowed b) (hf : Framed hash allowed b t₀ t) {item : Artifact}
    (h : item ∈ b.files) (he : Expected hash t item) :
    Framed hash allowed b t₀ (t.insert (components item.path) (.file item.bytes)) := by
  have hs := (V.files item h).1
  have hne := relative_ne_nil hs
  intro p
  by_cases hp : p = components item.path
  · subst hp
    have ht := look_insert (t := t) hne (.file item.bytes) (components item.path)
    rw [if_pos rfl] at ht
    generalize hq : components item.path = q at hf ht ⊢
    cases hf q with
    | same hl =>
      subst hq
      refine .written h hs ?_ ht
      simpa only [Expected,hl] using he
    | @written item' h' hs' he' ht' =>
      obtain rfl := V.file_unique h h' hq
      exact .written h' hs' he' ht
    | created h' hs' hn hq' h₀ ht' =>
      exact absurd (hq ▸ mem_paths_file h) (V.apart _ (mem_paths_file h') q hq')
    | deleted h' hs' hh ht' => exact absurd hq (V.file_ne_delete h h')
    | retired h' hs' hw h₀ ht' =>
      subst hq
      rw [V.file_not_within h h'] at hw
      cases hw
  · exact (hf p).congr (by rw [look_insert hne,if_neg hp])

/-- Making a missing ancestor of an artifact keeps the frame. -/
theorem framed_mkdir (V : Valid hash allowed b) (hf : Framed hash allowed b t₀ t) {item : Artifact}
    (h : item ∈ b.files) (hn : item.expected = none) {q : Path}
    (hq : q ∈ properAncestors (components item.path)) (hl : look t q = none) :
    Framed hash allowed b t₀ (t.insert q .directory) := by
  have hs := (V.files item h).1
  have hne : q ≠ [] := by rintro rfl; simp at hl
  intro p
  by_cases hp : p = q
  · subst hp
    have ht := look_insert (t := t) hne .directory p
    rw [if_pos rfl] at ht
    cases hf p with
    | same h₀ => exact .created h hs hn hq (h₀.symm.trans hl) ht
    | written h' hs' he' ht' => rw [hl] at ht'; cases ht'
    | created h' hs' hn' hq' h₀ ht' => rw [hl] at ht'; cases ht'
    | deleted h' hs' hh ht' =>
      exact absurd (mem_paths_delete h') (V.apart _ (mem_paths_file h) _ hq)
    | retired h' hs' hw h₀ ht' =>
      have hfalse := V.file_not_within h h'
      rw [within_of_ancestor hw hq] at hfalse
      cases hfalse
  · exact (hf p).congr (by rw [look_insert hne,if_neg hp])

/-- Removing a file that holds the deleted bytes keeps the frame. -/
theorem framed_unlink (V : Valid hash allowed b) (hf : Framed hash allowed b t₀ t) {item : Identity}
    (h : item ∈ b.delete) (hh : Holds hash t item) :
    Framed hash allowed b t₀ (t.erase (components item.path)) := by
  have hs := (V.identities item (List.mem_append_right _ h)).1
  have hne := relative_ne_nil hs
  obtain ⟨old,hold,hsha⟩ := hh
  intro p
  by_cases hp : p = components item.path
  · subst hp
    have ht := look_erase (t := t) hne (components item.path)
    rw [if_pos rfl] at ht
    generalize hq : components item.path = q at hf ht hold ⊢
    cases hf q with
    | same hl =>
      subst hq
      exact .deleted h hs ⟨old,hl ▸ hold,hsha⟩ ht
    | written h' hs' he' ht' => exact absurd hq.symm (V.file_ne_delete h' h)
    | created h' hs' hn' hq' h₀ ht' => rw [hold] at ht'; cases ht'
    | deleted h' hs' hh' ht' => rw [hold] at ht'; cases ht'
    | retired h' hs' hw h₀ ht' => rw [hold] at ht'; cases ht'
  · exact (hf p).congr (by rw [look_erase hne,if_neg hp])

/-- Removing a directory at or below a retirement root keeps the frame. -/
theorem framed_rmdir (V : Valid hash allowed b) (hf : Framed hash allowed b t₀ t) {name : String}
    (h : name ∈ b.prune) {q : Path} (hne : q ≠ []) (hw : within (components name) q)
    (hd : look t q = some .directory) : Framed hash allowed b t₀ (t.erase q) := by
  have hs := (V.prune name h).1
  intro p
  by_cases hp : p = q
  · subst hp
    have ht := look_erase (t := t) hne p
    rw [if_pos rfl] at ht
    cases hf p with
    | same hl => exact .retired h hs hw (hl.symm.trans hd) ht
    | written h' hs' he' ht' => rw [hd] at ht'; cases ht'
    | created h' hs' hn' hq' h₀ ht' =>
      have hfalse := V.file_not_within h' h
      rw [within_of_ancestor hw hq'] at hfalse
      cases hfalse
    | deleted h' hs' hh' ht' => rw [hd] at ht'; cases ht'
    | retired h' hs' hw' h₀ ht' => rw [hd] at ht'; cases ht'
  · exact (hf p).congr (by rw [look_erase hne,if_neg hp])

/-- Whatever a permitted request does, the frame is kept. -/
theorem framed_step (V : Valid hash allowed b) (hf : Framed hash allowed b t₀ t) {q : Req}
    {a : Rep q} (hp : Permitted hash allowed b t q) (ha : Answer t q a t') :
    Framed hash allowed b t₀ t' := by
  cases hp with
  | write h hs he =>
    cases ha
    exact framed_write V hf h he
  | mkdir h hs hn hp =>
    cases ha with
    | made hl => exact framed_mkdir V hf h hn hp hl
    | present hl => exact hf
  | unlink h hs hh =>
    cases ha
    exact framed_unlink V hf h hh
  | rmdir h hs hp hd hg =>
    cases ha with
    | removed hne hd' he => exact framed_rmdir V hf h hne hp hd
    | occupied hd' he => exact hf

end

/-! ## Looking at the receiver -/

/-- What a result of hashing a path says about the tree. -/
def Sees (t : Tree) (p : Path) : Receiver → Prop
  | .missing => look t p = none
  | .file sha => ∃ old, look t p = some (.file old) ∧ hash old = sha
  | .foreign => True

/-- The directories below an open one that a path goes through. -/
def Opened (t : Tree) (parent : Path) : List String → Prop
  | [] => True
  | name::names => look t (parent ++ [name]) = some .directory ∧ Opened t (parent ++ [name]) names

section
variable {hash allowed} {faults : Bool} {G : Tree → Req → Prop} {s : Unit} {t : Tree}
  {P : Tree → Prop}

/-- A script that leaves the tree alone when it fails. -/
abbrev Kept {α : Type} (t : Tree) (post : α → Prop) : Except Error α → Unit → Tree → Prop :=
  Ends (fun a _ t' => t' = t ∧ post a) fun _ _ t' => t' = t

theorem wp_checkout (hG : ∀ q, q.reads → G t q) (p : Path) :
    Script.wp (disk faults) G (checkout p)
      (Kept t fun git => git = (look t (p ++ [".git"])).isSome) s t := by
  apply Script.wp_bind.2
  apply wp_stat (hG _ rfl)
  · exact ⟨rfl,by simp⟩
  · intro e
    exact rfl

theorem wp_syncIf (hG : ∀ q, q.reads → G t q) (durable : Bool) (p : Path) :
    Script.wp (disk faults) G (syncIf durable p) (Kept t fun _ => True) s t := by
  cases durable with
  | false => exact ⟨rfl,trivial⟩
  | true =>
    apply wp_sync (hG _ rfl)
    · exact ⟨rfl,trivial⟩
    · intro e
      exact rfl

theorem wp_enter (hG : ∀ q, q.reads → G t q) (durable : Bool) (parent p : Path) :
    Script.wp (disk faults) G (enter durable parent p) (Kept t fun _ => True) s t := by
  apply wp_then (wp_syncIf hG durable parent)
  rintro _ s _ ⟨rfl,-⟩
  apply wp_then (wp_checkout hG p)
  rintro git s _ ⟨rfl,-⟩
  cases git with
  | true => exact rfl
  | false => exact ⟨rfl,trivial⟩

/-- Resolving without creating changes nothing. -/
theorem wp_openFrom (hG : ∀ q, q.reads → G t q) (durable : Bool) (parent : Path)
    (names : List String) :
    Script.wp (disk faults) G (openFrom false durable parent names)
      (Kept t fun found => found → Opened t parent names) s t := by
  induction names generalizing parent s with
  | nil => exact ⟨rfl,fun _ => trivial⟩
  | cons name names ih =>
    have hopen : Script.wp (disk faults) G (openOrCreate false (parent ++ [name]))
        (Kept t fun found => found → look t (parent ++ [name]) = some .directory) s t := by
      apply Script.wp_bind.2
      apply wp_openDir (hG _ rfl)
      · intro h
        exact ⟨rfl,fun _ => h⟩
      · intro h
        exact ⟨rfl,by simp⟩
      · intro e
        exact rfl
    apply wp_then hopen
    rintro found s _ ⟨rfl,hfound⟩
    cases found with
    | false =>
      apply wp_then (wp_syncIf hG durable parent)
      rintro _ s _ ⟨rfl,-⟩
      exact ⟨rfl,by simp⟩
    | true =>
      apply wp_then (wp_enter hG durable parent _)
      rintro _ s _ ⟨rfl,-⟩
      apply wp_ends (ih (parent ++ [name]))
      · rintro found _ _ ⟨rfl,h⟩
        exact ⟨rfl,fun hf => ⟨hfound rfl,h hf⟩⟩
      · exact fun _ _ _ h => h

theorem wp_receiverHashAt (hG : ∀ q, q.reads → G t q) (p : Path) :
    Script.wp (disk faults) G (receiverHashAt hash p) (Kept t (Sees hash t p)) s t := by
  apply Script.wp_bind.2
  apply wp_stat (hG _ rfl)
  · cases he : look t p with
    | none => exact ⟨rfl,he⟩
    | some entry =>
      cases entry with
      | directory => exact ⟨rfl,trivial⟩
      | link => exact ⟨rfl,trivial⟩
      | special => exact ⟨rfl,trivial⟩
      | file bytes =>
        dsimp only [Option.map,Entry.kind]
        split
        · exact ⟨rfl,trivial⟩
        · apply Script.wp_bind.2
          apply wp_read (hG _ rfl)
          · intro bytes' hb
            dsimp only
            split
            · exact ⟨rfl,trivial⟩
            · exact ⟨rfl,bytes',hb,rfl⟩
          · intro hm
            rw [he] at hm
            cases hm
          · exact ⟨rfl,trivial⟩
          · exact ⟨rfl,trivial⟩
          · intro e
            exact rfl
  · intro e
    exact rfl

/-- A missing path has a missing ancestor, or all its ancestors are open. -/
theorem wp_receiverHash (hG : ∀ q, q.reads → G t q) (p : Path) :
    Script.wp (disk faults) G (receiverHash hash p) (Kept t fun r =>
      r = .missing ∨ r = .foreign ∨ (Opened t [] p.dropLast ∧ Sees hash t p r)) s t := by
  have hparent : Script.wp (disk faults) G (receiverParent false false p).attempt
      (Ends (Kept t fun found => found → Opened t [] p.dropLast) fun _ _ t' => t' = t) s t :=
    wp_attempt_ends (wp_openFrom hG false [] p.dropLast)
  apply wp_then hparent
  rintro (e | found) s t' h
  · obtain rfl := h
    cases e with
    | blocked => exact ⟨rfl,by simp⟩
    | io => exact rfl
    | invalid m => exact rfl
  · obtain ⟨rfl,hfound⟩ := h
    cases found with
    | false => exact ⟨rfl,by simp⟩
    | true =>
      apply wp_ends (wp_receiverHashAt hG p)
      · rintro r _ _ ⟨rfl,hr⟩
        exact ⟨rfl,.inr (.inr ⟨hfound rfl,hr⟩)⟩
      · exact fun _ _ _ h => h

end

/-! ## Changing the receiver -/

/-- Any read, and any change that the batch permits. -/
def Careful (b : Batch) (t : Tree) (q : Req) : Prop := q.reads ∨ Permitted hash allowed b t q

section
variable {hash allowed} {faults : Bool} {G : Tree → Req → Prop} {b : Batch} {s : Unit} {t : Tree}

theorem careful_reads (t : Tree) (q : Req) (h : q.reads) : Careful hash allowed b t q := .inl h

/-- Nothing is said of the end, only of the requests on the way. -/
abbrev Any {α : Type} : Except Error α → Unit → Tree → Prop :=
  Ends (fun _ _ _ => True) fun _ _ _ => True

theorem wp_kept {α β : Type} {m : Io α} {f : α → Io β} {post : α → Prop}
    (h : Script.wp (disk faults) G m (Kept t post) s t)
    (hf : ∀ a s, post a → Script.wp (disk faults) G (f a) Any s t) :
    Script.wp (disk faults) G (m >>= f) Any s t := by
  apply wp_seq h
  · rintro a s _ ⟨rfl,ha⟩
    exact hf a s ha
  · exact fun _ _ _ _ => trivial

theorem wp_any_then {α β : Type} {m : Io α} {f : α → Io β}
    (h : Script.wp (disk faults) G m Any s t)
    (hf : ∀ a s t, Script.wp (disk faults) G (f a) Any s t) :
    Script.wp (disk faults) G (m >>= f) Any s t :=
  wp_then h fun a s t _ => hf a s t

theorem wp_sync_any (hG : ∀ q, q.reads → G t q) (p : Path) :
    Script.wp (disk faults) G (sync p) Any s t :=
  wp_sync (hG _ rfl) trivial fun _ => trivial

theorem wp_sync_kept (hG : ∀ q, q.reads → G t q) (p : Path) :
    Script.wp (disk faults) G (sync p) (Kept t fun _ => True) s t :=
  wp_sync (hG _ rfl) ⟨rfl,trivial⟩ fun _ => rfl

/-- Through open directories nothing is created. -/
theorem wp_openFrom_opened (hG : ∀ q, q.reads → G t q) (durable : Bool) (parent : Path)
    (names : List String) (h : Opened t parent names) :
    Script.wp (disk faults) G (openFrom true durable parent names) (Kept t fun _ => True) s t := by
  induction names generalizing parent s with
  | nil => exact ⟨rfl,trivial⟩
  | cons name names ih =>
    have hopen : Script.wp (disk faults) G (openOrCreate true (parent ++ [name]))
        (Kept t fun found => found = true) s t := by
      apply Script.wp_bind.2
      apply wp_openDir (hG _ rfl)
      · intro _
        exact ⟨rfl,rfl⟩
      · intro hn
        rw [h.1] at hn
        cases hn
      · intro e
        exact rfl
    apply wp_then hopen
    rintro found s _ ⟨rfl,hfound⟩
    cases hfound
    apply wp_then (wp_enter hG durable parent _)
    rintro _ s _ ⟨rfl,-⟩
    exact ih (parent ++ [name]) h.2

/-- The ancestors of an artifact that nothing precedes are created where they miss. -/
theorem wp_openFrom_create {item : Artifact} (hi : item ∈ b.files)
    (hs : relative allowed (components item.path) = .ok ()) (hn : item.expected = none)
    (durable : Bool) (parent : Path) (names : List String)
    (hp : ∀ p, p <+: parent ++ names → p ≠ [] → p ∈ properAncestors (components item.path)) :
    Script.wp (disk faults) (Careful hash allowed b) (openFrom true durable parent names) Any s t := by
  induction names generalizing parent s t with
  | nil => exact trivial
  | cons name names ih =>
    have hmem : parent ++ [name] ∈ properAncestors (components item.path) :=
      hp _ ⟨names,by simp⟩ (by simp)
    have hopen : Script.wp (disk faults) (Careful hash allowed b)
        (openOrCreate true (parent ++ [name])) Any s t := by
      apply Script.wp_bind.2
      apply wp_openDir (careful_reads _ _ rfl)
      · exact fun _ => trivial
      · intro hmissing
        apply Script.wp_bind.2
        apply wp_mkdir (.inr (.mkdir hi hs hn hmem))
        · intro _
          apply Script.wp_bind.2
          exact wp_openDir (careful_reads _ _ rfl) (fun _ => trivial) (fun _ => trivial)
            fun _ => trivial
        · exact fun h => absurd hmissing h
        · exact fun _ => trivial
      · exact fun _ => trivial
    apply wp_any_then hopen
    intro found s t
    cases found with
    | false =>
      apply wp_kept (wp_syncIf (careful_reads t) durable parent)
      exact fun _ _ _ => trivial
    | true =>
      apply wp_kept (wp_enter (careful_reads t) durable parent _)
      intro _ s _
      apply ih (parent ++ [name])
      intro p hpre hne
      exact hp p (by simpa using hpre) hne

theorem wp_applyVerify (item : Identity) (r : Receipt) :
    Script.wp (disk faults) (Careful hash allowed b) (applyVerify hash item r) Any s t := by
  apply wp_kept (wp_receiverHash (careful_reads t) _)
  intro current s _
  split
  · apply wp_kept (wp_openFrom (careful_reads t) true [] _)
    intro parent s _
    split
    · exact trivial
    · apply wp_kept (wp_sync_kept (careful_reads t) _)
      exact fun _ _ _ => trivial
  · exact trivial

theorem fits_missing {item : Artifact} (h : item.fits .missing) : item.expected = none := by
  cases he : item.expected with
  | none => rfl
  | some sha => simp [Artifact.fits,Receiver.matches_,Receiver.expected,he] at h

theorem fits_foreign {item : Artifact} (h : item.fits .foreign) : False := by
  cases he : item.expected <;>
    simp [Artifact.fits,Receiver.matches_,Receiver.expected,he] at h

/-- A path that fits and does not hold the new bytes holds what was expected. -/
theorem expected_of_fits {item : Artifact} {pinned : Receiver} (h : item.fits pinned)
    (hm : ¬ pinned.matches_ item.sha256) (hsees : Sees hash t (components item.path) pinned) :
    Expected hash t item := by
  simp only [Artifact.fits,hm,Bool.false_or] at h
  unfold Expected
  cases he : item.expected with
  | none =>
    simp only [Receiver.expected,he,decide_eq_true_eq] at h
    subst h
    exact hsees
  | some sha =>
    simp only [Receiver.expected,Receiver.matches_,he,decide_eq_true_eq] at h
    subst h
    exact hsees

theorem wp_applyFile {item : Artifact} (hi : item ∈ b.files)
    (hs : relative allowed (components item.path) = .ok ()) (r : Receipt) :
    Script.wp (disk faults) (Careful hash allowed b) (applyFile hash item r) Any s t := by
  apply wp_kept (wp_receiverHash (careful_reads t) _)
  intro current s hcurrent
  split
  · exact trivial
  rename_i hfits
  simp only [Bool.not_eq_true,Bool.not_eq_false] at hfits
  have hparent : Script.wp (disk faults) (Careful hash allowed b)
      (receiverParent true true (components item.path)) Any s t := by
    rcases hcurrent with rfl | rfl | ⟨hopen,-⟩
    · apply wp_openFrom_create hi hs (fits_missing hfits)
      intro p hp hne
      have hpre : p <+: (components item.path).dropLast := hp
      refine mem_properAncestors.2 ⟨hpre.trans (List.dropLast_prefix _),?_⟩
      rintro rfl
      have hl := hpre.length_le
      have hpos := List.length_pos_iff.2 hne
      simp only [List.length_dropLast] at hl
      omega
    · exact (fits_foreign hfits).elim
    · apply wp_ends (wp_openFrom_opened (careful_reads t) true [] _ hopen)
      · exact fun _ _ _ _ => trivial
      · exact fun _ _ _ _ => trivial
  apply wp_any_then hparent
  intro _ s t
  apply wp_kept (wp_receiverHashAt (careful_reads t) _)
  intro pinned s hsees
  split
  · exact trivial
  rename_i hpinned
  simp only [Bool.not_eq_true,Bool.not_eq_false] at hpinned
  have hsettle : Script.wp (disk faults) (Careful hash allowed b) (settle item pinned) Any s t := by
    unfold settle
    split
    · exact wp_sync_any (careful_reads t) _
    · rename_i hm
      apply Script.wp_bind.2
      apply wp_write (.inr (.write hi hs (expected_of_fits hpinned hm hsees)))
      · exact fun _ => wp_sync_any (careful_reads _) _
      · exact fun _ => trivial
  apply wp_any_then hsettle
  exact fun _ _ _ => trivial

theorem wp_applyDelete (blocked : List Path) {item : Identity} (hi : item ∈ b.delete)
    (hs : relative allowed (components item.path) = .ok ()) (r : Receipt) :
    Script.wp (disk faults) (Careful hash allowed b) (applyDelete hash blocked item r) Any s t := by
  unfold applyDelete
  split
  · exact trivial
  apply wp_kept (wp_receiverHash (careful_reads t) _)
  intro current s _
  split
  · exact trivial
  apply wp_kept (wp_openFrom (careful_reads t) true [] _)
  intro parent s _
  split
  · apply wp_kept (wp_receiverHashAt (careful_reads t) _)
    intro pinned s hsees
    split
    · exact trivial
    rename_i hremovable
    simp only [Bool.not_eq_true,Bool.not_eq_false] at hremovable
    have hremove : Script.wp (disk faults) (Careful hash allowed b) (removePinned item pinned) Any
        s t := by
      unfold removePinned
      split
      · exact wp_sync_any (careful_reads t) _
      · rename_i hm
        obtain rfl : pinned = .file item.sha256 := by
          simpa [Identity.removable,Receiver.matches_,hm] using hremovable
        apply Script.wp_bind.2
        apply wp_unlink (.inr (.unlink hi hs hsees))
        · exact fun _ _ => wp_sync_any (careful_reads _) _
        · exact fun _ => trivial
    apply wp_any_then hremove
    exact fun _ _ _ => trivial
  · split
    · exact trivial
    · exact trivial

theorem wp_pruneEmpty {name : String} (hn : name ∈ b.prune)
    (hs : relative allowed (components name) = .ok ()) {p : Path} (hw : within (components name) p) :
    Script.wp (disk faults) (Careful hash allowed b) (pruneEmpty p) Any s t := by
  apply wp_kept (wp_openFrom (careful_reads t) true [] _)
  intro parent s _
  split
  · exact trivial
  apply Script.wp_bind.2
  apply wp_stat (careful_reads _ _ rfl)
  · cases he : look t p with
    | none =>
      apply wp_kept (wp_sync_kept (careful_reads t) _)
      exact fun _ _ _ => trivial
    | some entry =>
      cases entry with
      | file bytes => exact trivial
      | link => exact trivial
      | special => exact trivial
      | directory =>
        apply Script.wp_bind.2
        apply wp_openDir (careful_reads _ _ rfl)
        · intro hd
          apply wp_kept (wp_checkout (careful_reads t) p)
          intro git s hgit
          split
          · exact trivial
          · rename_i hfalse
            have hnone : look t (p ++ [".git"]) = none := by
              simpa [hgit] using hfalse
            apply Script.wp_bind.2
            apply wp_rmdir (.inr (.rmdir hn hs hw hd hnone))
            · intro _ _ _
              apply wp_kept (wp_sync_kept (careful_reads _) _)
              exact fun _ _ _ => trivial
            · exact fun _ _ => trivial
            · exact fun _ => trivial
        · intro hn
          rw [he] at hn
          cases hn
        · exact fun _ => trivial
  · exact fun _ => trivial

theorem wp_pruneAll {name : String} (hn : name ∈ b.prune)
    (hs : relative allowed (components name) = .ok ()) {ps : List Path}
    (hw : ∀ p ∈ ps, within (components name) p) :
    Script.wp (disk faults) (Careful hash allowed b) (pruneAll ps) Any s t := by
  induction ps generalizing s t with
  | nil => exact trivial
  | cons p ps ih =>
    apply wp_any_then (wp_pruneEmpty hn hs (hw p (by simp)))
    intro complete s t
    split
    · exact ih fun q hq => hw q (List.mem_cons_of_mem _ hq)
    · exact trivial

theorem mem_retired {root p : Path} {items : List Identity} :
    p ∈ retired root items ↔
      within root p ∧ ∃ item ∈ items, p ∈ properAncestors (components item.path) := by
  simp only [retired,List.mem_reverse,Std.ExtTreeSet.mem_toList,Std.ExtTreeSet.mem_ofList,
    List.contains_iff_mem,List.mem_flatMap,List.mem_filter]
  constructor
  · rintro ⟨item,hitem,hp,hw⟩
    exact ⟨hw,item,hitem,hp⟩
  · rintro ⟨hw,item,hitem,hp⟩
    exact ⟨item,hitem,hp,hw⟩

theorem wp_applyPrune (blocked : List Path) {name : String} (hn : name ∈ b.prune)
    (hs : relative allowed (components name) = .ok ()) (r : Receipt) :
    Script.wp (disk faults) (Careful hash allowed b) (applyPrune blocked b name r) Any s t := by
  simp only [applyPrune]
  split
  · apply wp_any_then (wp_pruneAll hn hs fun p hp => (mem_retired.1 hp).1)
    intro complete s t
    split
    · exact trivial
    · exact trivial
  · exact trivial

theorem wp_each {α : Type} {step : α → Receipt → Io Receipt} {as : List α}
    (h : ∀ a ∈ as, ∀ r s t, Script.wp (disk faults) G (step a r) Any s t) (r : Receipt) :
    Script.wp (disk faults) G (each step as r) Any s t := by
  induction as generalizing r s t with
  | nil => exact trivial
  | cons a as ih =>
    apply wp_any_then (h a (by simp) r s t)
    intro r s t
    exact ih (fun a' ha' => h a' (List.mem_cons_of_mem _ ha')) r

theorem mem_pruneOrder {pruning : List Path} {name : String} (h : name ∈ pruneOrder b pruning) :
    name ∈ b.prune := by
  obtain ⟨p,-,hp⟩ := List.mem_filterMap.1 h
  exact List.mem_of_find?_eq_some hp

/-- Every change an application makes is one that its batch permits at that moment. -/
theorem wp_applyItems (V : Valid hash allowed b) (blocked pruning : List Path) (r : Receipt) :
    Script.wp (disk faults) (Careful hash allowed b) (applyItems hash b blocked pruning r) Any
      s t := by
  apply wp_any_then (wp_each (fun item _ r s t => wp_applyVerify item r) r)
  intro r s t
  apply wp_any_then (wp_each (fun item hi r s t => wp_applyFile hi (V.files item hi).1 r) r)
  intro r s t
  apply wp_any_then (wp_each (fun item hi r s t => wp_applyDelete blocked hi
    (V.identities item (List.mem_append_right _ hi)).1 r) r)
  intro r s t
  apply wp_each
  intro name hname r s t
  have hn := mem_pruneOrder hname
  exact wp_applyPrune blocked hn (V.prune name hn).1 r

end

/-! ## The whole application -/

section
variable {hash allowed} {faults : Bool} {b : Batch}

theorem stat_reads (p : Path) : (stat p).Uses fun q => q.reads := uses_ask rfl
theorem openDir_reads (p : Path) : (openDir p).Uses fun q => q.reads := uses_ask rfl
theorem read_reads (p : Path) : (FileTree.read p).Uses fun q => q.reads := uses_ask rfl

theorem checked_reads {α : Type} (r : Except Error α) : (checked r).Uses fun q => q.reads := by
  cases r with
  | error e => exact uses_throw e
  | ok a => exact uses_pure a

theorem checkout_reads (p : Path) : (checkout p).Uses fun q => q.reads :=
  uses_bind (stat_reads _) fun _ => uses_pure _

theorem enter_reads (parent p : Path) : (enter false parent p).Uses fun q => q.reads := by
  apply uses_bind (uses_pure _)
  intro _
  apply uses_bind (checkout_reads p)
  intro git
  split
  · exact uses_throw _
  · exact uses_pure _

theorem openFrom_reads (parent : Path) (names : List String) :
    (openFrom false false parent names).Uses fun q => q.reads := by
  induction names generalizing parent with
  | nil => exact uses_pure _
  | cons name names ih =>
    have hopen : (openOrCreate false (parent ++ [name])).Uses fun q => q.reads := by
      apply uses_bind (openDir_reads _)
      intro found
      split
      · exact uses_pure _
      · exact uses_pure _
    apply uses_bind hopen
    intro found
    split
    · exact uses_bind (enter_reads _ _) fun _ => ih _
    · exact uses_bind (uses_pure _) fun _ => uses_pure _

theorem receiverHashAt_reads (p : Path) : (receiverHashAt hash p).Uses fun q => q.reads := by
  apply uses_bind (stat_reads p)
  intro entry
  split
  · exact uses_pure _
  · split
    · exact uses_pure _
    · apply uses_bind (read_reads p)
      intro content
      split
      · exact uses_pure _
      · exact uses_pure _
      · exact uses_pure _
      · split
        · exact uses_pure _
        · exact uses_pure _
  · exact uses_pure _

theorem receiverHash_reads (p : Path) : (receiverHash hash p).Uses fun q => q.reads := by
  apply uses_bind (uses_attempt (openFrom_reads [] _))
  intro parent
  split
  · exact receiverHashAt_reads p
  · exact uses_pure _
  · exact uses_pure _
  · exact uses_throw _

theorem blockedParent_reads (p : Path) : (blockedParent p).Uses fun q => q.reads := by
  apply uses_bind (uses_attempt (openFrom_reads [] _))
  intro parent
  split
  · exact uses_pure _
  · exact uses_pure _
  · exact uses_throw _

theorem look_reads (p : Path) : ((receiverProbe hash).look p).Uses fun q => q.reads :=
  uses_bind (receiverHash_reads p) fun _ => uses_pure _

theorem blockedRoots_reads (names : List String) (blocked : List Path) :
    (blockedRoots (receiverProbe hash) allowed names blocked).Uses fun q => q.reads := by
  induction names generalizing blocked with
  | nil => exact uses_pure _
  | cons name names ih =>
    apply uses_bind (checked_reads _)
    intro _
    exact uses_bind (blockedParent_reads _) fun _ => ih _

theorem blockedDeletes_reads (roots : List Path) (items : List Identity) (blocked : List Path) :
    (blockedDeletes (receiverProbe hash) allowed roots items blocked).Uses fun q => q.reads := by
  induction items generalizing blocked with
  | nil => exact uses_pure _
  | cons item items ih =>
    apply uses_bind (checked_reads _)
    intro _
    split
    · exact ih _
    · exact uses_bind (blockedParent_reads _) fun _ => ih _

theorem validateFiles_reads (items : List Artifact) (t : Tally) :
    (validateFiles hash (receiverProbe hash) allowed items t).Uses fun q => q.reads := by
  induction items generalizing t with
  | nil => exact uses_pure _
  | cons item items ih =>
    apply uses_bind (checked_reads _)
    intro _
    apply uses_bind (look_reads _)
    intro _
    exact uses_bind (checked_reads _) fun _ => ih _

theorem validateIdentities_reads (blocked : List Path) (items : List Identity) (t : Tally) :
    (validateIdentities (receiverProbe hash) allowed blocked items t).Uses fun q => q.reads := by
  induction items generalizing t with
  | nil => exact uses_pure _
  | cons item items ih =>
    have hlook : (lookUnlessBlocked (receiverProbe hash) blocked
        (components item.path)).Uses fun q => q.reads := by
      unfold lookUnlessBlocked
      split
      · exact uses_pure _
      · exact look_reads _
    apply uses_bind (checked_reads _)
    intro _
    apply uses_bind hlook
    intro _
    exact uses_bind (checked_reads _) fun _ => ih _

/-- Validation only looks. -/
theorem validateBatch_reads : (validateBatch hash (receiverProbe hash) allowed b).Uses
    fun q => q.reads := by
  apply uses_bind (checked_reads _)
  intro size
  apply uses_bind (blockedRoots_reads _ _)
  intro blocked
  apply uses_bind (blockedDeletes_reads _ _ _)
  intro blocked
  apply uses_bind (validateFiles_reads _ _)
  intro tally
  apply uses_bind (validateIdentities_reads _ _ _)
  intro tally
  split
  · exact checked_reads _
  · exact uses_bind (checked_reads _) fun _ => uses_pure _

/-- A run of the validation that succeeds on the tree the application began with. -/
def Validated (hash : List UInt8 → String) (allowed : List Path) (faults : Bool) (b : Batch)
    (t₀ : Tree) : Prop :=
  ∃ blocked pruning, Reach (disk faults) ((validateBatch hash (receiverProbe hash) allowed b).start ())
    t₀ (.ret (.ok (blocked,pruning),())) t₀

theorem Validated.valid {t₀ : Tree} (h : Validated hash allowed faults b t₀) :
    Valid hash allowed b := by
  obtain ⟨blocked,pruning,hr⟩ := h
  exact (validateBatch_ok (ioOutcome _) (receiverProbe_lift hash) ⟨(),t₀,(),t₀,hr⟩).1

theorem wp_applyLocked (t₀ : Tree) :
    Script.wp (disk faults)
      (fun t q => q.reads ∨ (Validated hash allowed faults b t₀ ∧ Permitted hash allowed b t q))
      (applyLocked hash allowed b) Any () t₀ := by
  have hG : ∀ t (q : Req), q.reads → q.reads ∨
      (Validated hash allowed faults b t₀ ∧ Permitted hash allowed b t q) := fun _ _ h => .inl h
  apply wp_kept (wp_checkout (hG t₀) [])
  intro git s _
  split
  · exact trivial
  apply Script.wp_bind.2
  apply Script.wp_mono (wp_reading (hG t₀) validateBatch_reads)
  rintro (e | ⟨blocked,pruning⟩) s' t ⟨rfl,hr⟩
  · exact trivial
  have hv : Validated hash allowed faults b t := ⟨blocked,pruning,hr⟩
  dsimp only
  cases hd : batchDigest hash b with
  | error e => exact trivial
  | ok digest =>
    have hitems : Script.wp (disk faults) (Careful hash allowed b)
        (applyItems hash b blocked pruning ⟨digest,∅,∅,[],[]⟩) Any s' t :=
      wp_applyItems hv.valid blocked pruning _
    apply Effect.wp_guard hitems
    rintro w q (h | h)
    · exact .inl h
    · exact .inr ⟨hv,h⟩

/-- SHA-256 of the two texts the sample hashes. -/
def sampleHash (bytes : List UInt8) : String :=
  if bytes = [104,105] then "8f434346648f6b96df89dda901c5176b10a6d83961dd3c1ac88b59b2dc327aa4"
  else "93c609b1e4c91689c94602b97b4cdbed801e772077158c6c345e89afb19ab32b"

def sampleBatch : Batch :=
  { Batch.empty with files := [⟨"evidence/a",sampleHash [104,105],none,[104,105]⟩] }

def sampleApply (n : ℕ) :=
  advance serve n ((applyLocked sampleHash [["evidence"]] sampleBatch).start ()) ∅

end

end Evidence
end CanixToolbelt
