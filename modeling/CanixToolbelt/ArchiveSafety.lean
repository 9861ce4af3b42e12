import Mathlib.Data.List.Pairwise
import Mathlib.Data.List.Perm.Subperm
import CanixToolbelt.Archive
import CanixToolbelt.Fallible

/-! Where the links of an accepted archive lead once it is extracted. -/
namespace CanixToolbelt
namespace Archive
open FileTree (Path components render properAncestors mem_properAncestors)
open LinkTree

/-! ## Following links ends -/

/-- The checker follows links for as many steps as there are links, at most. -/
theorem chase_isSome (links : Links) {seen : List String} (hn : seen.Nodup)
    (hs : ∀ s ∈ seen, s ∈ links) {n : ℕ} (hlen : links.size < n + seen.length) (target : String) :
    (chase links n seen target).isSome := by
  induction n generalizing seen target with
  | zero =>
    have hle : seen.length ≤ links.size := by
      rw [← Std.ExtTreeMap.length_keys]
      apply (hn.subperm fun s h => Std.ExtTreeMap.mem_keys.2 (hs s h)).length_le
    omega
  | succ n ih =>
    unfold chase
    split
    · rfl
    · rename_i next hl
      split
      · rfl
      · rename_i hnew
        apply ih
        · exact List.nodup_cons.2 ⟨hnew,hn⟩
        · intro s h
          rcases List.mem_cons.1 h with he | h
          · rw [he,Std.ExtTreeMap.mem_iff_isSome_getElem?,hl]
            rfl
          · exact hs s h
        · simp only [List.length_cons]
          omega

theorem chase_ends (links : Links) (target : String) :
    (chase links (links.size + 1) [] target).isSome :=
  chase_isSome links List.nodup_nil (by simp) (by simp) target

/-! ## What a scan has read -/

variable {hash : List UInt8 → String} {version : ℕ}

/-- What the scan retains for an entry. -/
def Retains (hash : List UInt8 → String) (version : ℕ) (e : Entry) (f : SourceFile) : Prop :=
  (e.kind = .file ∧ f.link = none ∨ e.kind = .symlink ∧ f.link = e.link ∧ e.link.isSome) ∧
    f.sha256 = hash (retained version e f.link)

/-- A link entry with its text, and where the text leads by name alone. -/
def Targets (e : Entry) (text target : String) : Prop :=
  e.kind = .symlink ∧ e.link = some text ∧ normalizedLink e.path text = .ok target

structure Scanned (hash : List UInt8 → String) (version : ℕ) (es : List Entry) (s : Scan) :
    Prop where
  seen : ∀ p, p ∈ s.seen ↔ ∃ e ∈ es, components e.path = p
  nodup : (es.map (components ·.path)).Nodup
  named : ∀ e ∈ es, relative e.path = .ok ()
  kinds : ∀ e ∈ es, e.kind ≠ .other
  targets : ∀ e ∈ es, e.kind = .symlink → ∃ text target, Targets e text target
  links : ∀ name target, s.links[name]? = some target ↔
    ∃ e ∈ es, e.path = name ∧ ∃ text, Targets e text target
  files : ∀ name f, s.files[name]? = some f → ∃ e ∈ es, e.path = name ∧ Retains hash version e f
  kept : ∀ e ∈ es, e.kind = .file ∨ e.kind = .symlink → ∃ f, s.files[e.path]? = some f ∧
    Retains hash version e f

theorem scanned_nil : Scanned hash version [] ⟨∅,∅,[]⟩ := by
  constructor <;> simp

/-- What reading one entry does to the scan. -/
theorem scanEntry_cases {s s' : Scan} {e : Entry} (h : scanEntry hash version s e = .ok s') :
    relative e.path = .ok () ∧ components e.path ∉ s.seen ∧ s'.seen = components e.path::s.seen ∧
    ((e.kind = .global ∨ e.kind = .directory) ∧ s'.files = s.files ∧ s'.links = s.links ∨
      (∃ x, e.kind = .file ∧ s'.links = s.links ∧
        s'.files = s.files.insert e.path ⟨hash (retained version e none),x,none⟩) ∨
      ∃ x text target, Targets e text target ∧ s'.links = s.links.insert e.path target ∧
        s'.files = s.files.insert e.path ⟨hash (retained version e (some text)),x,some text⟩) := by
  obtain ⟨u,hrel,h⟩ := Fallible.bind_ok h
  split at h
  · cases h
  rename_i hnew
  split at h
  · cases h
  refine ⟨hrel,hnew,?_⟩
  unfold scanKind at h
  split at h
  · rename_i hk
    obtain ⟨-,-,h⟩ := Fallible.bind_ok h
    cases h
    exact ⟨rfl,.inl ⟨.inl hk,rfl,rfl⟩⟩
  · rename_i hk
    cases h
    exact ⟨rfl,.inl ⟨.inr hk,rfl,rfl⟩⟩
  · rename_i hk
    split at h
    · cases h
    · rename_i text hl
      obtain ⟨target,ht,h⟩ := Fallible.bind_ok h
      cases h
      exact ⟨rfl,.inr (.inr ⟨_,text,target,⟨hk,hl,ht⟩,rfl,rfl⟩)⟩
  · rename_i hk
    cases h
    exact ⟨rfl,.inr (.inl ⟨_,hk,rfl,rfl⟩)⟩
  · cases h

theorem Scanned.step {es : List Entry} {s s' : Scan} {e : Entry} (S : Scanned hash version es s)
    (h : scanEntry hash version s e = .ok s') : Scanned hash version (es ++ [e]) s' := by
  obtain ⟨hrel,hnew,hseen,hcases⟩ := scanEntry_cases h
  have hnotin : ∀ f ∈ es, f.path ≠ e.path := by
    intro f hf he
    exact hnew ((S.seen _).2 ⟨f,hf,by rw [he]⟩)
  have hkept : ∀ f ∈ es, f.kind = .file ∨ f.kind = .symlink →
      ∃ g, s'.files[f.path]? = some g ∧ Retains hash version f g := by
    intro f hf hk
    obtain ⟨g,hg,hr⟩ := S.kept f hf hk
    refine ⟨g,?_,hr⟩
    have hne : e.path ≠ f.path := fun he => hnotin f hf he.symm
    rcases hcases with ⟨-,hfiles,-⟩ | ⟨x,-,-,hfiles⟩ | ⟨x,text,target,-,-,hfiles⟩
    · rw [hfiles,hg]
    · rw [hfiles,Std.ExtTreeMap.getElem?_insert,if_neg (by simpa using hne),hg]
    · rw [hfiles,Std.ExtTreeMap.getElem?_insert,if_neg (by simpa using hne),hg]
  constructor
  · intro p
    simp [hseen,S.seen,or_comm,eq_comm]
  · rw [List.map_append,List.nodup_append]
    refine ⟨S.nodup,by simp,?_⟩
    intro p hp q hq
    obtain rfl : q = components e.path := by simpa using hq
    rintro rfl
    obtain ⟨f,hf,he⟩ := List.mem_map.1 hp
    exact hnew ((S.seen _).2 ⟨f,hf,he⟩)
  · intro f hf
    rcases List.mem_append.1 hf with hf | hf
    · exact S.named f hf
    · rw [List.mem_singleton.1 hf]
      exact hrel
  · intro f hf
    rcases List.mem_append.1 hf with hf | hf
    · exact S.kinds f hf
    · rw [List.mem_singleton.1 hf]
      rcases hcases with ⟨hk | hk,-⟩ | ⟨x,hk,-⟩ | ⟨x,text,target,ht,-⟩
      · simp [hk]
      · simp [hk]
      · simp [hk]
      · simp [ht.1]
  · intro f hf hk
    rcases List.mem_append.1 hf with hf | hf
    · exact S.targets f hf hk
    · obtain rfl := List.mem_singleton.1 hf
      rcases hcases with ⟨hk' | hk',-⟩ | ⟨x,hk',-⟩ | ⟨x,text,target,ht,-⟩
      · simp [hk] at hk'
      · simp [hk] at hk'
      · simp [hk] at hk'
      · exact ⟨text,target,ht⟩
  · intro name target
    have hlinks : s'.links[name]? = some target ↔ (s.links[name]? = some target ∨
        e.path = name ∧ ∃ text, Targets e text target) := by
      rcases hcases with ⟨hk,-,hl⟩ | ⟨x,hk,hl,-⟩ | ⟨x,text,target',ht,hl,-⟩
      · rw [hl]
        constructor
        · exact .inl
        · rintro (h | ⟨-,text,hs,-⟩)
          · exact h
          · simp [hs] at hk
      · rw [hl]
        constructor
        · exact .inl
        · rintro (h | ⟨-,text,hs,-⟩)
          · exact h
          · simp [hs] at hk
      · rw [hl,Std.ExtTreeMap.getElem?_insert]
        by_cases he : e.path = name
        · subst he
          have hnone : s.links[e.path]? ≠ some target := by
            intro hs
            obtain ⟨f,hf,he,-⟩ := (S.links _ _).1 hs
            exact hnotin f hf he
          rw [if_pos (by simp)]
          constructor
          · intro heq
            obtain rfl := Option.some.inj heq
            exact .inr ⟨rfl,text,ht⟩
          · rintro (h | ⟨-,text',ht'⟩)
            · exact absurd h hnone
            · obtain rfl := Option.some.inj (ht.2.1.symm.trans ht'.2.1)
              exact congrArg some (Except.ok.inj (ht.2.2.symm.trans ht'.2.2))
        · rw [if_neg (by simpa using he)]
          simp [he]
    rw [hlinks,S.links]
    constructor
    · rintro (⟨f,hf,h⟩ | h)
      · exact ⟨f,List.mem_append_left _ hf,h⟩
      · exact ⟨e,by simp,h⟩
    · rintro ⟨f,hf,h⟩
      rcases List.mem_append.1 hf with hf | hf
      · exact .inl ⟨f,hf,h⟩
      · rw [List.mem_singleton.1 hf] at h
        exact .inr h
  · intro name f hf
    have hold : s.files[name]? = some f →
        ∃ g ∈ es ++ [e], g.path = name ∧ Retains hash version g f := by
      intro hf
      obtain ⟨g,hg,h⟩ := S.files name f hf
      exact ⟨g,List.mem_append_left _ hg,h⟩
    have hinsert : ∀ v, Retains hash version e v → (s.files.insert e.path v)[name]? = some f →
        ∃ g ∈ es ++ [e], g.path = name ∧ Retains hash version g f := by
      intro v hv hf
      rw [Std.ExtTreeMap.getElem?_insert] at hf
      split at hf
      · rename_i he
        obtain rfl := Option.some.inj hf
        exact ⟨e,by simp,by simpa using he,hv⟩
      · exact hold hf
    rcases hcases with ⟨-,hfiles,-⟩ | ⟨x,hk,-,hfiles⟩ | ⟨x,text,target,ht,-,hfiles⟩
    · exact hold (hfiles ▸ hf)
    · exact hinsert _ ⟨.inl ⟨hk,rfl⟩,rfl⟩ (hfiles ▸ hf)
    · exact hinsert _ ⟨.inr ⟨ht.1,ht.2.1.symm,by simp [ht.2.1]⟩,rfl⟩ (hfiles ▸ hf)
  · intro f hf hk
    rcases List.mem_append.1 hf with hf | hf
    · exact hkept f hf hk
    · obtain rfl := List.mem_singleton.1 hf
      rcases hcases with ⟨hk' | hk',-⟩ | ⟨x,hk',-,hfiles⟩ | ⟨x,text,target,ht,-,hfiles⟩
      · simp [hk'] at hk
      · simp [hk'] at hk
      · rw [hfiles]
        exact ⟨_,Std.ExtTreeMap.getElem?_insert_self,.inl ⟨hk',rfl⟩,rfl⟩
      · rw [hfiles]
        exact ⟨_,Std.ExtTreeMap.getElem?_insert_self,.inr ⟨ht.1,ht.2.1.symm,by simp [ht.2.1]⟩,rfl⟩

/-- A scan that succeeds has read every entry. -/
theorem scan_ok {archive : List (Option Entry)} {done : List Entry} {s s' : Scan}
    (S : Scanned hash version done s) (h : scan hash version s archive = .ok s') :
    Scanned hash version (done ++ archive.filterMap id) s' := by
  induction archive generalizing done s with
  | nil =>
    cases h
    simpa using S
  | cons a archive ih =>
    cases a with
    | none => cases h
    | some e =>
      obtain ⟨s₁,h₁,h⟩ := Fallible.bind_ok h
      simpa using ih (S.step h₁) h

/-! ## What the checks of the links establish -/

theorem anyWithin_iff {names : List String} {target : String} :
    anyWithin names target = true ↔ ∃ n ∈ names, components target <+: components n := by
  simp [anyWithin]

/-- The end of a link is a file of the inventory, or names a directory without links. -/
def Ends (version : ℕ) (links : Links) (files files' : Files) (name last : String) : Prop :=
  match files[last]? with
  | some g => version = 1 → ∃ f, files'[name]? = some f ∧ f.sha256 = g.sha256
  | none => (∃ n ∈ files, components last <+: components n) ∧
      ∀ n ∈ links, ¬ components last <+: components n

/-- Files that differ in the hashes of some links only. -/
structure Rehashed (version : ℕ) (files files' : Files) (names : List String) : Prop where
  same : ∀ n : String, n ∉ names → files'[n]? = files[n]?
  link : ∀ n : String, (files'[n]?).bind SourceFile.link = (files[n]?).bind SourceFile.link
  mem : ∀ n : String, n ∈ files' ↔ n ∈ files
  other : version ≠ 1 → files' = files

theorem chase_last {links : Links} {n : ℕ} {seen : List String} {target last : String}
    (h : chase links n seen target = some (.ok last)) : links[last]? = none := by
  induction n generalizing seen target with
  | zero => simp [chase] at h
  | succ n ih =>
    unfold chase at h
    split at h
    · rename_i hl
      cases h
      exact hl
    · split at h
      · cases h
      · exact ih h

theorem settleTarget_ok {links : Links} {files files' : Files} {name last : String}
    (h : settleTarget version links files name last = .ok files') :
    Rehashed version files files' [name] ∧ Ends version links files files' name last := by
  unfold settleTarget at h
  unfold Ends
  cases hg : files[last]? with
  | some g =>
    simp only [hg] at h ⊢
    split at h
    · rename_i hv
      split at h
      · cases h
      · rename_i entry he
        cases h
        refine ⟨⟨?_,?_,?_,fun hn => absurd hv hn⟩,fun _ => ?_⟩
        · intro n hn
          have hne : name ≠ n := by simpa [eq_comm] using hn
          rw [Std.ExtTreeMap.getElem?_insert,if_neg (by simpa using hne)]
        · intro n
          rw [Std.ExtTreeMap.getElem?_insert]
          split
          · rename_i hn
            have hn' : name = n := by simpa using hn
            rw [← hn',he]
            rfl
          · rfl
        · intro n
          rw [Std.ExtTreeMap.mem_insert]
          constructor
          · rintro (hn | hn)
            · have hn' : name = n := by simpa using hn
              rw [← hn',Std.ExtTreeMap.mem_iff_isSome_getElem?,he]
              rfl
            · exact hn
          · exact .inr
        · exact ⟨_,Std.ExtTreeMap.getElem?_insert_self,rfl⟩
    · rename_i hv
      cases h
      exact ⟨⟨fun _ _ => rfl,fun _ => rfl,fun _ => .rfl,fun _ => rfl⟩,fun h => absurd h hv⟩
  | none =>
    simp only [hg] at h ⊢
    split at h
    · cases h
    · rename_i hw
      split at h
      · cases h
      · rename_i hl
        cases h
        rw [not_or,not_not,anyWithin_iff] at hw
        refine ⟨⟨fun _ _ => rfl,fun _ => rfl,fun _ => .rfl,fun _ => rfl⟩,?_,?_⟩
        · simpa using hw.2
        · intro n hn hpre
          exact hl (anyWithin_iff.2 ⟨n,Std.ExtTreeMap.mem_keys.2 hn,hpre⟩)

/-- The checks of all links establish where each one ends. -/
theorem settle_ok {links : Links} {files files' : Files} {rest : List (String × String)}
    (hd : (rest.map Prod.fst).Nodup) (hlinks : ∀ e ∈ rest, e.1 ∈ links)
    (h : settle version links files rest = .ok files') :
    Rehashed version files files' (rest.map Prod.fst) ∧ ∀ e ∈ rest, ∃ last,
      chase links (links.size + 1) [] e.2 = some (.ok last) ∧
        Ends version links files files' e.1 last := by
  induction rest generalizing files with
  | nil =>
    cases h
    exact ⟨⟨fun _ _ => rfl,fun _ => rfl,fun _ => .rfl,fun _ => rfl⟩,by simp⟩
  | cons e rest ih =>
    obtain ⟨name,target⟩ := e
    obtain ⟨hnew,hd⟩ := List.nodup_cons.1 hd
    unfold settle at h
    split at h
    · cases h
    rename_i r hchase
    obtain ⟨last,hr,hlast⟩ := Fallible.bind_ok h
    subst hr
    obtain ⟨files₁,h₁,h⟩ := Fallible.bind_ok hlast
    obtain ⟨hre,hends⟩ := settleTarget_ok h₁
    obtain ⟨hre',hall⟩ := ih hd (fun e he => hlinks e (List.mem_cons_of_mem _ he)) h
    have hname : files'[name]? = files₁[name]? := hre'.same name hnew
    refine ⟨⟨?_,?_,?_,?_⟩,?_⟩
    · intro n hn
      rw [List.map_cons,List.mem_cons,not_or] at hn
      rw [hre'.same n hn.2,hre.same n (by simpa using hn.1)]
    · intro n
      rw [hre'.link n,hre.link n]
    · intro n
      rw [hre'.mem n,hre.mem n]
    · intro hv
      rw [hre'.other hv,hre.other hv]
    · intro e he
      rcases List.mem_cons.1 he with he | he
      · subst he
        refine ⟨last,hchase,?_⟩
        unfold Ends at hends ⊢
        rw [hname]
        exact hends
      · obtain ⟨last',hchase',hends'⟩ := hall e he
        refine ⟨last',hchase',?_⟩
        have hlast : last' ≠ name := by
          rintro rfl
          have hmem := hlinks (last',target) (by simp)
          rw [Std.ExtTreeMap.mem_iff_isSome_getElem?,chase_last hchase'] at hmem
          cases hmem
        unfold Ends at hends' ⊢
        rw [hre.same last' (by simpa using hlast)] at hends'
        split
        · rename_i g hg
          rw [hg] at hends'
          exact hends'
        · rename_i hg
          rw [hg] at hends'
          obtain ⟨⟨n,hn,hpre⟩,hno⟩ := hends'
          exact ⟨⟨n,(hre.mem n).1 hn,hpre⟩,hno⟩

/-! ## The extracted tree -/

/-- Files and links, as opposed to directories and metadata. -/
def Entry.solid (e : Entry) : Prop := e.kind = .file ∨ e.kind = .symlink

instance (e : Entry) : Decidable e.solid := inferInstanceAs (Decidable (_ ∨ _))

def Entry.node (e : Entry) : Node :=
  match e.kind with
  | .symlink => .link (e.link.getD "")
  | _ => .file e.bytes

/-- A file or link is at or above another entry. -/
def Covers (e f : Entry) : Prop := e.solid ∧ f.kind ≠ .global ∧ place e.path <+: place f.path

instance (e f : Entry) : Decidable (Covers e f) := inferInstanceAs (Decidable (_ ∧ _ ∧ _))

/-- No file or link stands at the root, or at or above another entry. -/
structure Tidy (es : List Entry) : Prop where
  apart : es.Pairwise fun e f => ¬ Covers e f ∧ ¬ Covers f e
  rooted : ∀ e ∈ es, e.solid → place e.path ≠ []

theorem look_makeDirectory (t : Tree) (p q : Path) :
    look (makeDirectory t p) q = (look t q).or (if q = p then some .directory else none) := by
  unfold makeDirectory
  split
  · rename_i hp
    obtain ⟨n,hn⟩ := Option.isSome_iff_exists.1 hp
    by_cases hq : q = p
    · simp [hq,hn]
    · simp [hq]
  · rename_i hp
    have hnone : look t p = none := by simpa using hp
    have hne : p ≠ [] := by
      rintro rfl
      simp at hnone
    rw [look_insert hne]
    by_cases hq : q = p
    · simp [hq,hnone]
    · simp [hq]

theorem look_makeDirectories (t : Tree) (ps : List Path) (q : Path) :
    look (ps.foldl makeDirectory t) q = (look t q).or (if q ∈ ps then some .directory else none) := by
  induction ps generalizing t with
  | nil => simp
  | cons p ps ih =>
    rw [List.foldl_cons,ih,look_makeDirectory]
    by_cases hq : q = p
    · cases look t q <;> simp [hq]
    · by_cases hm : q ∈ ps <;> simp [hq,hm]

/-- Extracting an entry sets its own place and adds the directories above it. -/
theorem look_extractEntry {t : Tree} {e : Entry} (hk : e.kind ≠ .other)
    (hr : e.solid → place e.path ≠ []) (q : Path) : look (extractEntry t e) q =
    if e.solid ∧ q = place e.path then some e.node
    else (look t q).or
      (if e.kind ≠ .global ∧ q <+: place e.path then some .directory else none) := by
  have hpre : q <+: place e.path ↔ q ∈ properAncestors (place e.path) ∨ q = place e.path := by
    rw [mem_properAncestors]
    by_cases hq : q = place e.path <;> simp [hq]
  have hsolid : e.solid → look (((properAncestors (place e.path)).foldl makeDirectory t).insert
      (place e.path) e.node) q = if q = place e.path then some e.node
        else (look t q).or (if q <+: place e.path then some .directory else none) := by
    intro hs
    rw [look_insert (hr hs),look_makeDirectories]
    by_cases hq : q = place e.path
    · simp [hq]
    · simp [hq,hpre]
  unfold extractEntry
  cases he : e.kind with
  | global => simp [he,Entry.solid]
  | other => exact absurd he hk
  | directory =>
    dsimp only
    rw [look_makeDirectory,look_makeDirectories]
    by_cases hq : q = place e.path
    · simp [he,Entry.solid,hq,mem_properAncestors]
    · simp [he,Entry.solid,hpre,hq]
  | symlink =>
    have hs : e.solid := .inr he
    have hn : e.node = .link (e.link.getD "") := by simp [Entry.node,he]
    have h := hsolid hs
    rw [hn] at h ⊢
    dsimp only
    rw [h]
    simp [hs]
  | file =>
    have hs : e.solid := .inl he
    have hn : e.node = .file e.bytes := by simp [Entry.node,he]
    have h := hsolid hs
    rw [hn] at h ⊢
    dsimp only
    rw [h]
    simp [hs]

/-- A tidy archive extracts to its entries and the directories above them. -/
theorem look_extracted {es : List Entry} (T : Tidy es) (hk : ∀ e ∈ es, e.kind ≠ .other) :
    (∀ e ∈ es, e.solid → look (es.foldl extractEntry ∅) (place e.path) = some e.node) ∧
    ∀ q, (∀ e ∈ es, e.solid → place e.path ≠ q) → look (es.foldl extractEntry ∅) q =
      if q = [] ∨ ∃ e ∈ es, e.kind ≠ .global ∧ q <+: place e.path then some .directory else none := by
  induction es using List.reverseRecOn with
  | nil =>
    refine ⟨by simp,fun q _ => ?_⟩
    by_cases hq : q = [] <;> simp [hq,look]
  | append_singleton es f ih =>
    obtain ⟨hap,-,hcross⟩ := List.pairwise_append.1 T.apart
    have hmem : ∀ e ∈ es, e ∈ es ++ [f] := fun e he => List.mem_append_left _ he
    have hf : f ∈ es ++ [f] := by simp
    obtain ⟨hsolid,hdir⟩ := ih ⟨hap,fun e he => T.rooted e (hmem e he)⟩ fun e he => hk e (hmem e he)
    rw [List.foldl_append,List.foldl_cons,List.foldl_nil]
    have hlook := fun q => look_extractEntry (t := es.foldl extractEntry ∅) (hk f hf) (T.rooted f hf) q
    constructor
    · intro e he hs
      rw [hlook]
      rcases List.mem_append.1 he with he | he
      · have hne : ¬ (f.solid ∧ place e.path = place f.path) := by
          rintro ⟨hfs,heq⟩
          refine (hcross e he f (by simp)).1 ⟨hs,?_,heq ▸ List.prefix_rfl⟩
          rcases hfs with h | h <;> simp [h]
        rw [if_neg hne,hsolid e he hs]
        rfl
      · rw [List.mem_singleton.1 he] at hs ⊢
        rw [if_pos ⟨hs,rfl⟩]
    · intro q hq
      rw [hlook,hdir q fun e he => hq e (hmem e he),if_neg]
      · by_cases h₁ : q = [] ∨ ∃ e ∈ es, e.kind ≠ .global ∧ q <+: place e.path
        · have h₂ : q = [] ∨ ∃ e ∈ es ++ [f], e.kind ≠ .global ∧ q <+: place e.path := by
            rcases h₁ with h | ⟨e,he,h⟩
            · exact .inl h
            · exact .inr ⟨e,hmem e he,h⟩
          rw [if_pos h₁,if_pos h₂]
          rfl
        · rw [if_neg h₁,Option.none_or]
          congr 1
          rw [not_or] at h₁
          simp only [List.mem_append,List.mem_singleton,eq_iff_iff]
          constructor
          · intro h
            exact .inr ⟨f,.inr rfl,h⟩
          · rintro (h | ⟨e,he | he,h⟩)
            · exact absurd h h₁.1
            · exact absurd ⟨e,he,h⟩ h₁.2
            · exact he ▸ h
      · rintro ⟨hs,he⟩
        exact hq f hf hs he.symm

/-- Everything strictly above a path is a directory. -/
def Standing (t : Tree) (p : Path) : Prop := ∀ q, q <+: p → q ≠ p → look t q = some .directory

instance : Std.Symm fun e f : Entry => ¬ Covers e f ∧ ¬ Covers f e := ⟨fun _ _ h => ⟨h.2,h.1⟩⟩

/-- What a tidy archive without unsupported entries extracts to. -/
structure Extracts (es : List Entry) (t : Tree) : Prop where
  solid : ∀ e ∈ es, e.solid → look t (place e.path) = some e.node
  standing : ∀ e ∈ es, e.kind ≠ .global → Standing t (place e.path)
  origin : ∀ q n, look t q = some n → q = [] ∨ ∃ e ∈ es, e.kind ≠ .global ∧ q <+: place e.path

theorem extracts {es : List Entry} (T : Tidy es) (hk : ∀ e ∈ es, e.kind ≠ .other) :
    Extracts es (es.foldl extractEntry ∅) := by
  obtain ⟨hsolid,hdir⟩ := look_extracted T hk
  refine ⟨hsolid,?_,?_⟩
  · intro e he hg q hpre hne
    rw [hdir,if_pos (.inr ⟨e,he,hg,hpre⟩)]
    intro f hf hs hq
    by_cases hfe : f = e
    · exact hne (hq ▸ hfe ▸ rfl)
    · exact ((T.apart.forall) hf he hfe).1 ⟨hs,hg,hq ▸ hpre⟩
  · intro q n hq
    by_cases hs : ∃ e ∈ es, e.solid ∧ place e.path = q
    · obtain ⟨e,he,hs,rfl⟩ := hs
      refine .inr ⟨e,he,?_,List.prefix_rfl⟩
      rcases hs with h | h <;> simp [h]
    · have hns : ∀ e ∈ es, e.solid → place e.path ≠ q := fun e he h hp => hs ⟨e,he,h,hp⟩
      rw [hdir q hns] at hq
      split at hq
      · rename_i h
        exact h
      · cases hq

/-- Directories are below directories only. -/
theorem Extracts.closed {es : List Entry} {t : Tree} (X : Extracts es t) {q : Path} {n : Node}
    (h : look t q = some n) : Standing t q := by
  intro r hr hne
  rcases X.origin q n h with rfl | ⟨e,he,hg,hpre⟩
  · exact absurd (List.prefix_nil.1 hr) hne
  · refine X.standing e he hg r (hr.trans hpre) ?_
    rintro rfl
    exact hne (hr.eq_of_length (le_antisymm hr.length_le hpre.length_le))

end Archive
end CanixToolbelt
