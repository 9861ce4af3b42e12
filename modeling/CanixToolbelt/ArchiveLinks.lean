import Mathlib.Data.List.Nodup
import CanixToolbelt.ArchiveSafety

/-! The links of an accepted archive: the checker reads their texts name by name, and a
directory is left by `..` only where the file system leaves it the same way. -/
namespace CanixToolbelt
namespace Archive
open FileTree (Path components render properAncestors mem_properAncestors components_cases
  components_render_of notMem_part)
open LinkTree

/-! ## Reading a link text by name -/

/-- The place that a list of components names. -/
def real (p : Path) : Path := p.filter (· ≠ ".")

theorem real_append {p : Path} {c : String} (hc : c ≠ ".") : real (p ++ [c]) = real p ++ [c] := by
  simp [real,hc]

theorem real_prefix {p q : Path} (h : p <+: q) : real p <+: real q := h.filter _

theorem real_dropLast {p : Path} (ht : "." ∉ p.tail) (hne : real p ≠ []) :
    real p.dropLast = (real p).dropLast := by
  rcases List.eq_nil_or_concat p with rfl | ⟨p,c,rfl⟩
  · rfl
  · rw [List.concat_eq_append] at *
    by_cases hc : c = "."
    · subst hc
      cases p with
      | nil => exact absurd rfl hne
      | cons x p => simp at ht
    · rw [real_append hc]
      simp

theorem notMem_tail_dropLast {p : Path} (ht : "." ∉ p.tail) : "." ∉ p.dropLast.tail := by
  intro h
  rw [List.tail_dropLast] at h
  exact ht (List.mem_of_mem_dropLast h)

theorem notMem_tail_append {p : Path} {c : String} (ht : "." ∉ p.tail) (hc : c ≠ ".") :
    "." ∉ (p ++ [c]).tail := by
  cases p with
  | nil => simp
  | cons x p => simpa [Ne.symm hc] using ht

/-- The parts of a text that are names or `..`. -/
def names (cs : List String) : List String := cs.filter fun c => !dot c

/-- A text is read from a place by name, and every `..` of it meets a condition. -/
inductive Reads (R : Path → Prop) : Path → List String → Path → Prop
  | done {p : Path} : Reads R p [] p
  | stay {p q : Path} {c : String} {cs : List String} (hc : dot c = true) (h : Reads R p cs q) :
      Reads R p (c::cs) q
  | up {p q : Path} {cs : List String} (hp : R p) (h : Reads R p.dropLast cs q) :
      Reads R p ("..":: cs) q
  | name {p q : Path} {c : String} {cs : List String} (hc : dot c = false) (hu : c ≠ "..")
      (h : Reads R (p ++ [c]) cs q) : Reads R p (c::cs) q

/-- Every `..` of a text leaves a place that meets a condition. -/
def Climbs (R : Path → Prop) : Path → List String → Prop
  | _, [] => True
  | p, c::cs => if dot c then Climbs R p cs else if c = ".." then R p ∧ Climbs R p.dropLast cs
    else Climbs R (p ++ [c]) cs

instance climbsDecidable (R : Path → Prop) [DecidablePred R] :
    (p : Path) → (cs : List String) → Decidable (Climbs R p cs)
  | _, [] => .isTrue trivial
  | p, c::cs =>
    have := climbsDecidable R p cs
    have := climbsDecidable R p.dropLast cs
    have := climbsDecidable R (p ++ [c]) cs
    inferInstanceAs (Decidable (if dot c then _ else if c = ".." then _ ∧ _ else _))

theorem real_names {p : Path} {cs : List String} : real (p ++ names cs) = real p ++ names cs := by
  rw [real,List.filter_append,← real]
  congr 1
  apply List.filter_eq_self.2
  intro c hc
  have hd := (List.mem_filter.1 hc).2
  simp only [dot,Bool.not_or,Bool.and_eq_true] at hd
  simpa using hd.2

theorem dot_false {c : String} (h : dot c = false) : c ≠ "" ∧ c ≠ "." := by
  simpa [dot] using h

theorem turn_name {p : Path} {c : String} {cs : Path} (hc : dot c = false) (hu : c ≠ "..")
    (hs : c ≠ "/") : turn p (c::cs) = turn (p ++ [c]) cs := by
  have hd := (dot_false hc).2
  rw [turn]
  · exact hd
  · exact hu
  · exact hs

theorem turn_up {p : Path} {cs : Path} : turn p ("..":: cs) =
    if p = [] then invalid "archive link escapes root" else turn p.dropLast cs := by
  rw [turn]

theorem reads_of_turn {R : Path → Prop} {p q : Path} {cs : List String}
    (hs : ∀ c ∈ cs, c ≠ "/") (ht : turn p (names cs) = .ok q) (hc : Climbs R p cs) :
    Reads R p cs q := by
  induction cs generalizing p with
  | nil =>
    cases ht
    exact .done
  | cons c cs ih =>
    have hs' : ∀ c ∈ cs, c ≠ "/" := fun c h => hs c (List.mem_cons_of_mem _ h)
    unfold Climbs at hc
    split at hc
    · rename_i hd
      rw [names,List.filter_cons_of_neg (by simp [hd])] at ht
      exact .stay hd (ih hs' ht hc)
    rename_i hd
    rw [Bool.not_eq_true] at hd
    rw [names,List.filter_cons_of_pos (by simp [hd])] at ht
    split at hc
    · rename_i hu
      subst hu
      rw [turn_up] at ht
      split at ht
      · cases ht
      · exact .up hc.1 (ih hs' ht hc.2)
    · rename_i hu
      rw [turn_name hd hu (hs c (by simp))] at ht
      exact .name hd hu (ih hs' ht hc)

/-- Past a place that no `..` may leave from below, only names can follow. -/
theorem Reads.blocked {R : Path → Prop} {r p q : Path} {cs : List String}
    (hR : ∀ s, r <+: s → ¬ R s) (h : Reads R p cs q) (hp : r <+: p) :
    q = p ++ names cs ∧ ".." ∉ cs := by
  induction h with
  | done => simp [names]
  | stay hc _ ih =>
    obtain ⟨hq,hn⟩ := ih hp
    rename_i c cs _
    have hu : ".." ≠ c := by
      rintro rfl
      simp [dot] at hc
    exact ⟨by simp [hq,names,hc],by simp [hn,hu]⟩
  | up hp' => exact absurd hp' (hR _ hp)
  | name hc hu _ ih =>
    obtain ⟨hq,hn⟩ := ih (hp.trans (List.prefix_append _ _))
    exact ⟨by simp [hq,names,hc],by simp [hn,Ne.symm hu]⟩

theorem climbs_of_notMem {R : Path → Prop} {p : Path} {cs : List String} (h : ".." ∉ cs) :
    Climbs R p cs := by
  induction cs generalizing p with
  | nil => trivial
  | cons c cs ih =>
    simp only [List.mem_cons,not_or] at h
    unfold Climbs
    rw [if_neg (Ne.symm h.1)]
    split
    · exact ih h.2
    · exact ih h.2

/-! ## Reading it as the file system does -/

/-- A place that `..` leaves as the file system does: a directory below the root. -/
def Steady (t : Tree) (p : Path) : Prop := real p ≠ [] ∧ look t (real p) = some .directory

instance (t : Tree) : DecidablePred (Steady t) := fun _ => inferInstanceAs (Decidable (_ ∧ _))

/-- A place that is neither a link nor below one. -/
def Free (t : Tree) (p : Path) : Prop := ∀ q, q <+: real p → ∀ text, look t q ≠ some (.link text)

section
variable {t : Tree} {p q r : Path} {cs : List String}

theorem all_dots (h : names cs = []) : ∀ c ∈ cs, dot c = true := by
  simpa [names] using h

/-- A text whose every `..` leaves a directory leads the file system where it leads by
name, once the last name is arrived at. -/
theorem Reads.resolves (hclosed : ∀ q n, look t q = some n → Standing t q)
    (h : Reads (Steady t) p cs q) (hp : look t (real p) = some .directory) (hd : "." ∉ p.tail)
    (hq : Standing t (real q)) (hdir : look t (real q) = some .directory → r = real q)
    (harr : ∀ d c, dot c = false → c ≠ ".." → d ++ [c] = real q →
      look t (real q) ≠ some .directory → ∀ rest, (∀ x ∈ rest, dot x = true) →
      (rest ≠ [] → look t r = some .directory) → Resolves t d (c::rest) r)
    (hlast : ∀ c, cs.getLast? = some c → dot c = true → look t r = some .directory) :
    Resolves t (real p) cs r := by
  have htail : ∀ {c : String} {cs : List String},
      (∀ x, (c::cs).getLast? = some x → dot x = true → look t r = some .directory) →
      ∀ x, cs.getLast? = some x → dot x = true → look t r = some .directory := by
    intro c cs h x hx
    refine h x ?_
    rw [List.getLast?_cons,hx]
    rfl
  induction h with
  | done =>
    rw [hdir hp]
    exact .done
  | stay hc _ ih => exact .stay hc (ih hp hd hq hdir harr (htail hlast))
  | up hs _ ih =>
    rename_i p q cs _
    have hdrop := real_dropLast hd hs.1
    refine .up hs.1 (hdrop ▸ ih ?_ (notMem_tail_dropLast hd) hq hdir harr (htail hlast))
    rw [hdrop]
    apply hclosed _ _ hp _ (List.dropLast_prefix _)
    intro he
    have hlen := congrArg List.length he
    have hpos := List.length_pos_of_ne_nil hs.1
    simp only [List.length_dropLast] at hlen
    omega
  | name hc hu hr ih =>
    rename_i p q c cs
    have hdot := (dot_false hc).2
    by_cases hl : look t (real p ++ [c]) = some .directory
    · have hnext := real_append (p := p) hdot
      refine .enter hc hu hl (hnext ▸ ih ?_ (notMem_tail_append hd hdot) hq hdir harr (htail hlast))
      rw [hnext,hl]
    · -- What stands here is no directory, so nothing but dots can follow.
      have hblock : ∀ s, p ++ [c] <+: s → ¬ Steady t s := by
        rintro s hs ⟨-,hsd⟩
        have hpre := real_prefix hs
        rw [real_append hdot] at hpre
        by_cases he : real p ++ [c] = real s
        · exact hl (he ▸ hsd)
        · exact hl (hclosed _ _ hsd _ hpre he)
      obtain ⟨hqn,-⟩ := hr.blocked hblock List.prefix_rfl
      have hnames : names cs = [] := by
        by_contra hne
        apply hl
        apply hq
        · rw [hqn,real_names,real_append hdot]
          exact List.prefix_append _ _
        · intro he
          rw [hqn,real_names,real_append hdot] at he
          simp [hne] at he
      have hreal : real p ++ [c] = real q := by
        rw [hqn,hnames,List.append_nil,real_append hdot]
      refine harr _ c hc hu hreal (hreal ▸ hl) cs (all_dots hnames) ?_
      intro hne
      obtain ⟨x,hx⟩ := Option.isSome_iff_exists.1 (List.getLast?_isSome.2 hne)
      exact htail hlast x hx (all_dots hnames x (List.mem_of_getLast? hx))

/-- Where the file system arrives, every `..` that is not below a link has left a directory. -/
theorem Reads.steady (h : Reads (Free t) p cs q) (hclosed : ∀ q n, look t q = some n → Standing t q)
    (hp : look t (real p) = some .directory) (hd : "." ∉ p.tail)
    (hr : Resolves t (real p) cs r) : Climbs (Steady t) p cs := by
  induction h with
  | done => trivial
  | stay hc _ ih =>
    unfold Climbs
    rw [if_pos hc]
    exact ih hp hd ((resolves_dot hc).1 hr)
  | up _ _ ih =>
    rename_i p q cs _ _
    obtain ⟨hne,hr⟩ := resolves_up.1 hr
    have hdrop := real_dropLast hd hne
    refine ⟨⟨hne,hp⟩,ih ?_ (notMem_tail_dropLast hd) (hdrop ▸ hr)⟩
    rw [hdrop]
    apply hclosed _ _ hp _ (List.dropLast_prefix _)
    intro he
    have hlen := congrArg List.length he
    have hpos := List.length_pos_of_ne_nil hne
    simp only [List.length_dropLast] at hlen
    omega
  | name hc hu hn ih =>
    rename_i p q c cs
    have hdot := (dot_false hc).2
    have hra := real_append (p := p) hdot
    unfold Climbs
    rw [if_neg (by simp [hc]),if_neg hu]
    rcases (resolves_name hc hu).1 hr with ⟨hl,hr⟩ | ⟨bytes,hl,rfl,hr⟩ | ⟨text,hl,ha,hr⟩
    · exact ih (hra ▸ hl) (notMem_tail_append hd hdot) (hra ▸ hr)
    · trivial
    · have hblock : ∀ s, p ++ [c] <+: s → ¬ Free t s := by
        intro s hs hf
        have hpre := real_prefix hs
        rw [hra] at hpre
        exact hf _ hpre text hl
      exact climbs_of_notMem (hn.blocked hblock List.prefix_rfl).2

end

/-! ## Names of entries and targets -/

/-- Components as they are rendered: a dot may only stand first. -/
def Clean (p : Path) : Prop := (∀ c ∈ p, c ≠ "" ∧ '/' ∉ c.toList) ∧ "." ∉ p.tail

theorem relative_ok {name : String} (h : relative name = .ok ()) :
    ∀ c ∈ components name, c ≠ "/" ∧ c ≠ ".." := by
  unfold relative at h
  split at h
  · cases h
  · rename_i hn
    simpa using (not_or.1 hn).2

theorem clean_components {name : String} (h : relative name = .ok ()) : Clean (components name) := by
  have hrel := relative_ok h
  rcases components_cases name with he | ⟨rest,he,-⟩ | ⟨first,rest,he,hp,hne,hs⟩
  · simp [he,Clean]
  · exact absurd rfl (hrel "/" (by simp [he])).1
  · rw [he]
    refine ⟨?_,fun hd => (hp "." hd).2.1 rfl⟩
    intro c hc
    rcases List.mem_cons.1 hc with h | h
    · rw [h]
      exact ⟨hne,hs⟩
    · exact ⟨(hp c h).1,(hp c h).2.2⟩

theorem Clean.dropLast {p : Path} (h : Clean p) : Clean p.dropLast :=
  ⟨fun c hc => h.1 c (List.mem_of_mem_dropLast hc),notMem_tail_dropLast h.2⟩

theorem Reads.clean {R : Path → Prop} {p q : Path} {cs : List String} (h : Reads R p cs q)
    (hp : Clean p) (hs : ∀ c ∈ cs, '/' ∉ c.toList) : Clean q := by
  induction h with
  | done => exact hp
  | stay _ _ ih => exact ih hp fun c h => hs c (List.mem_cons_of_mem _ h)
  | up _ _ ih => exact ih hp.dropLast fun c h => hs c (List.mem_cons_of_mem _ h)
  | name hc _ _ ih =>
    rename_i p q c cs _ _
    have hd := dot_false hc
    refine ih ⟨?_,notMem_tail_append hp.2 hd.2⟩ fun c h => hs c (List.mem_cons_of_mem _ h)
    intro x hx
    rcases List.mem_append.1 hx with hx | hx
    · exact hp.1 x hx
    · rw [List.mem_singleton.1 hx]
      exact ⟨hd.1,hs c (by simp)⟩

theorem filter_names (cs : List String) : (cs.filter fun c => c ≠ "" && c ≠ ".") = names cs := by
  apply List.filter_congr
  intro c _
  simp [dot]

/-- A relative text is read by its parts. -/
theorem turn_components {text : String} (h : absolute text = false) (p : Path) :
    turn p (components text) = turn p (names (parts text)) := by
  unfold components
  generalize hparts : List.map String.ofList _ = cs
  change parts text = cs at hparts
  rw [hparts]
  split
  · rfl
  · rfl
  · rename_i cs hne
    -- An empty first part is what makes a text absolute.
    exfalso
    cases ht : text.toList with
    | nil =>
      rw [parts,ht] at hparts
      simp at hparts
      exact hne hparts
    | cons x xs =>
      rw [parts,ht,List.splitOn,List.splitOnP_cons_eq_if_modifyHead] at hparts
      split at hparts
      · rename_i hx
        have hx' : x = '/' := by simpa using hx
        simp [absolute,ht,hx'] at h
      · obtain ⟨y,ys,hy⟩ := List.exists_cons_of_ne_nil (List.splitOnP_ne_nil (· == '/') xs)
        rw [hy] at hparts
        simp at hparts
  · rename_i c cs hne hone
    rw [filter_names]
    by_cases hc : c = "."
    · subst hc
      rfl
    · have hne' : c ≠ "" := by
        rintro rfl
        exact hone rfl
      rw [show names (c::cs) = c::names cs by simp [names,dot,hc,hne']]

/-- What an accepted link text means: a relative text that is read to the target by name. -/
structure Target (name text target : String) (q : Path) : Prop where
  relative : absolute text = false
  read : turn (components name).dropLast (names (parts text)) = .ok q
  target : components target = q
  clean : Clean q

theorem slashless {text c : String} (h : c ∈ parts text) : '/' ∉ c.toList := notMem_part h

theorem ne_slash {text : String} : ∀ c ∈ parts text, c ≠ "/" := by
  rintro c hc rfl
  exact slashless hc (by decide)

theorem climbs_true {p : Path} {cs : List String} : Climbs (fun _ => True) p cs := by
  induction cs generalizing p with
  | nil => trivial
  | cons c cs ih =>
    unfold Climbs
    split
    · exact ih
    · split
      · exact ⟨trivial,ih⟩
      · exact ih

theorem normalizedLink_ok {name text target : String} (h : normalizedLink name text = .ok target)
    (hn : Archive.relative name = .ok ()) : ∃ q, Target name text target q := by
  unfold normalizedLink at h
  split at h
  · cases h
  rename_i ha
  rw [Bool.not_eq_true] at ha
  obtain ⟨q,hq,h⟩ := Fallible.bind_ok h
  cases h
  rw [turn_components ha] at hq
  have hr := reads_of_turn ne_slash hq climbs_true
  have hc := hr.clean (clean_components hn).dropLast fun c hc => slashless hc
  exact ⟨q,ha,hq,components_render_of hc.1 hc.2,hc⟩

theorem place_eq (name : String) : place name = real (components name) := rfl

/-- The last component of a path that is no directory's alias for itself. -/
theorem exists_leaf {name : String} (hn : Archive.relative name = .ok ()) (hp : place name ≠ []) :
    ∃ c, dot c = false ∧ c ≠ ".." ∧ real (components name).dropLast ++ [c] = place name := by
  have hclean := clean_components hn
  have hdrop := real_dropLast hclean.2 hp
  refine ⟨(place name).getLast hp,?_,?_,?_⟩
  · have hmem := List.mem_filter.1 (List.getLast_mem hp)
    have hne := (hclean.1 _ hmem.1).1
    have hdot : (place name).getLast hp ≠ "." := by simpa using hmem.2
    simp [dot,hne,hdot]
  · exact (relative_ok hn _ (List.mem_filter.1 (List.getLast_mem hp)).1).2
  · rw [hdrop]
    exact List.dropLast_append_getLast hp

/-! ## Where links end -/

/-- By the names in the archive, the entry a link ends at. -/
inductive Recorded (es : List Entry) : String → String → Prop
  | link {e : Entry} {text target : String} (he : e ∈ es) (ht : Targets e text target)
      (hend : ∀ f ∈ es, f.kind = .symlink → f.path ≠ target) : Recorded es e.path target
  | chain {e : Entry} {text target last : String} (he : e ∈ es) (ht : Targets e text target)
      (h : Recorded es target last) : Recorded es e.path last

section
variable {hash : List UInt8 → String} {version : ℕ} {es : List Entry} {s : Scan} {t : Tree}
  {name target last text : String}

theorem Scanned.unique (S : Scanned hash version es s) {e f : Entry} (he : e ∈ es) (hf : f ∈ es)
    (h : e.path = f.path) : e = f :=
  List.inj_on_of_nodup_map S.nodup he hf (by rw [h])

theorem Targets.unique {e : Entry} {text' target' : String} (h : Targets e text target)
    (h' : Targets e text' target') : text = text' ∧ target = target' := by
  obtain rfl := Option.some.inj (h.2.1.symm.trans h'.2.1)
  exact ⟨rfl,Except.ok.inj (h.2.2.symm.trans h'.2.2)⟩

theorem Recorded.symlink (h : Recorded es name last) : ∃ e ∈ es, e.path = name ∧ e.kind = .symlink := by
  cases h with
  | link he ht _ => exact ⟨_,he,rfl,ht.1⟩
  | chain he ht _ => exact ⟨_,he,rfl,ht.1⟩

theorem Recorded.unique (S : Scanned hash version es s) (h : Recorded es name last) {last' : String}
    (h' : Recorded es name last') : last = last' := by
  induction h with
  | link he ht hend =>
    rename_i e text target
    generalize hn : e.path = n at h'
    cases h' with
    | link he' ht' _ =>
      obtain rfl := S.unique he he' hn
      exact (ht.unique ht').2
    | chain he' ht' hr =>
      obtain rfl := S.unique he he' hn
      obtain ⟨f,hf,hp,hk⟩ := hr.symlink
      exact absurd (hp.trans (ht.unique ht').2.symm) (hend f hf hk)
  | chain he ht hr ih =>
    rename_i e text target last
    generalize hn : e.path = n at h'
    cases h' with
    | link he' ht' hend =>
      obtain rfl := S.unique he he' hn
      obtain ⟨f,hf,hp,hk⟩ := hr.symlink
      exact absurd (hp.trans (ht.unique ht').2) (hend f hf hk)
    | chain he' ht' hr' =>
      obtain rfl := S.unique he he' hn
      rw [(ht.unique ht').2] at ih
      exact ih hr'

/-- What the checker follows is what the names record. -/
theorem recorded_of_chase (S : Scanned hash version es s) {n : ℕ} {seen : List String}
    (hl : s.links[name]? = some target) (h : chase s.links n seen target = some (.ok last)) :
    Recorded es name last := by
  induction n generalizing name target seen with
  | zero => simp [chase] at h
  | succ n ih =>
    obtain ⟨e,he,rfl,text,ht⟩ := (S.links _ _).1 hl
    unfold chase at h
    split at h
    · rename_i hnone
      cases h
      refine .link he ht fun f hf hk hp => ?_
      obtain ⟨text',target',ht'⟩ := S.targets f hf hk
      rw [(S.links _ _).2 ⟨f,hf,hp,text',ht'⟩] at hnone
      cases hnone
    · rename_i next hnext
      split at h
      · cases h
      · exact .chain he ht (ih hnext h)

/-- What the end of a link is in the extracted tree. -/
structure Rests (t : Tree) (p : Path) : Prop where
  standing : Standing t p
  node : look t p = some .directory ∨ ∃ bytes, look t p = some (.file bytes)

theorem rests_of_ends (S : Scanned hash version es s) (X : Extracts es t) {files' : Files}
    (hlast : s.links[last]? = none) (h : Ends version s.links s.files files' name last) :
    Rests t (place last) := by
  have hnolink : ∀ e ∈ es, e.kind = .symlink → e.path ∈ s.links := by
    intro e he hk
    obtain ⟨text,target,ht⟩ := S.targets e he hk
    rw [Std.ExtTreeMap.mem_iff_isSome_getElem?,(S.links _ _).2 ⟨e,he,rfl,text,ht⟩]
    rfl
  have hfile : ∀ {n f}, s.files[n]? = some f → n ∉ s.links →
      ∃ e ∈ es, e.path = n ∧ e.kind = .file := by
    intro n f hf hn
    obtain ⟨e,he,rfl,hr⟩ := S.files n f hf
    rcases hr.1 with ⟨hk,-⟩ | ⟨hk,-⟩
    · exact ⟨e,he,rfl,hk⟩
    · exact absurd (hnolink e he hk) hn
  unfold Ends at h
  split at h
  · rename_i g hg
    obtain ⟨e,he,rfl,hk⟩ := hfile hg (by simp [Std.ExtTreeMap.mem_iff_isSome_getElem?,hlast])
    refine ⟨X.standing e he (by simp [hk]),.inr ⟨e.bytes,?_⟩⟩
    rw [X.solid e he (.inl hk)]
    simp [Entry.node,hk]
  · obtain ⟨⟨n,hn,hpre⟩,hno⟩ := h
    rw [Std.ExtTreeMap.mem_iff_isSome_getElem?] at hn
    obtain ⟨f,hf⟩ := Option.isSome_iff_exists.1 hn
    obtain ⟨e,he,rfl,hk⟩ := hfile hf fun hmem => hno n hmem hpre
    have hplace : place last <+: place e.path := hpre.filter _
    have hst := X.standing e he (by simp [hk])
    by_cases heq : place last = place e.path
    · rw [heq]
      refine ⟨hst,.inr ⟨e.bytes,?_⟩⟩
      rw [X.solid e he (.inl hk)]
      simp [Entry.node,hk]
    · refine ⟨?_,.inl (hst _ hplace heq)⟩
      intro q hq hne
      refine hst q (hq.trans hplace) ?_
      rintro rfl
      exact hne (hq.eq_of_length (le_antisymm hq.length_le hplace.length_le))

/-! ## Links that lead where the inventory says -/

/-- A link text is read alike by name and in the tree: each `..` of it leaves a directory
below the root, and a slash or dot at its end follows the name of a directory. -/
structure Straight (es : List Entry) (t : Tree) (e : Entry) (text : String) : Prop where
  steady : Climbs (Steady t) (components e.path).dropLast (parts text)
  closed : ∀ c, (parts text).getLast? = some c → dot c = true → ∀ last, Recorded es e.path last →
    look t (place last) = some .directory

theorem resolves_dots {d : Path} {rest : List String} (h : ∀ c ∈ rest, dot c = true) :
    Resolves t d rest d := by
  induction rest with
  | nil => exact .done
  | cons c rest ih => exact .stay (h c (by simp)) (ih fun c hc => h c (List.mem_cons_of_mem _ hc))

theorem resolves_append_dots {d q : Path} {cs rest : List String} (h : Resolves t d cs q)
    (hr : ∀ c ∈ rest, dot c = true) (hd : rest ≠ [] → look t q = some .directory) :
    Resolves t d (cs ++ rest) q := by
  by_cases hrest : rest = []
  · rwa [hrest,List.append_nil]
  have hq := hd hrest
  induction h with
  | done => exact resolves_dots hr
  | stay hc _ ih => exact .stay hc (ih hd hq)
  | up hd' _ ih => exact .up hd' (ih hd hq)
  | enter hc hu hl _ ih => exact .enter hc hu hl (ih hd hq)
  | file _ _ hl =>
    rw [hl] at hq
    cases hq
  | follow hc hu hl ha _ ih =>
    refine .follow hc hu hl ha ?_
    have happ := ih hd hq
    rw [List.append_assoc] at happ
    exact happ

/-- A text that ends in a dot or a slash arrives at a directory. -/
theorem directory_of_dot (hclosed : ∀ q n, look t q = some n → Standing t q) {d q : Path}
    {cs : List String} (h : Resolves t d cs q) (hd : look t d = some .directory) {c : String}
    (hl : cs.getLast? = some c) (hc : dot c = true) : look t q = some .directory := by
  have htail : ∀ {x : String} {xs : List String}, (x::xs).getLast? = some c → xs ≠ [] →
      xs.getLast? = some c := by
    intro x xs h hne
    rw [List.getLast?_cons_of_ne_nil hne] at h
    exact h
  induction h with
  | done => simp at hl
  | stay _ h ih =>
    rename_i d q x cs hx
    by_cases hcs : cs = []
    · subst hcs
      rw [← resolves_nil.1 h]
      exact hd
    · exact ih hd (htail hl hcs)
  | up hne h ih =>
    rename_i d q cs
    have hdrop : look t d.dropLast = some .directory := by
      apply hclosed _ _ hd _ (List.dropLast_prefix _)
      intro he
      have hlen := congrArg List.length he
      have hpos := List.length_pos_of_ne_nil hne
      simp only [List.length_dropLast] at hlen
      omega
    by_cases hcs : cs = []
    · subst hcs
      rw [← resolves_nil.1 h]
      exact hdrop
    · exact ih hdrop (htail hl hcs)
  | enter _ _ hl' h ih =>
    rename_i d q x cs _ _
    by_cases hcs : cs = []
    · subst hcs
      rw [← resolves_nil.1 h]
      exact hl'
    · exact ih hl' (htail hl hcs)
  | file hc' =>
    rw [List.getLast?_singleton] at hl
    obtain rfl := Option.some.inj hl
    rw [hc] at hc'
    cases hc'
  | follow hc' _ _ _ _ ih =>
    rename_i d q x text cs _ _ _ _
    by_cases hcs : cs = []
    · subst hcs
      rw [List.getLast?_singleton] at hl
      obtain rfl := Option.some.inj hl
      rw [hc] at hc'
      cases hc'
    · apply ih hd
      rw [List.getLast?_append_of_ne_nil _ hcs]
      exact htail hl hcs

theorem Scanned.leaf (S : Scanned hash version es s) (T : Tidy es) {e : Entry} (he : e ∈ es)
    (hs : e.solid) : ∃ c, dot c = false ∧ c ≠ ".." ∧
      real (components e.path).dropLast ++ [c] = place e.path :=
  exists_leaf (S.named e he) (T.rooted e he hs)

theorem Extracts.parent (X : Extracts es t) {e : Entry} (he : e ∈ es) (hg : e.kind ≠ .global)
    {d : Path} {c : String} (h : d ++ [c] = place e.path) : look t d = some .directory := by
  refine X.standing e he hg d (h ▸ List.prefix_append _ _) ?_
  rw [← h]
  simp

/-- A place from which a path, with dots behind it, ends at another. -/
def Arrives (t : Tree) (p q : Path) : Prop :=
  ∀ d c, dot c = false → c ≠ ".." → d ++ [c] = p → ∀ rest, (∀ x ∈ rest, dot x = true) →
    (rest ≠ [] → look t q = some .directory) → Resolves t d (c::rest) q

/-- A straight link arrives where the place it is read to arrives. -/
theorem Straight.arrives (S : Scanned hash version es s) (T : Tidy es) (X : Extracts es t)
    {e : Entry} (he : e ∈ es) (ht : Targets e text target) (hstraight : Straight es t e text)
    (hrec : Recorded es e.path last) (hst : Standing t (place target))
    (hsame : look t (place target) = some .directory → place last = place target)
    (harr : look t (place target) ≠ some .directory → Arrives t (place target) (place last)) :
    Arrives t (place e.path) (place last) := by
  intro d c hc hu hd rest hr hdir
  have hsolid : e.solid := .inr ht.1
  obtain ⟨q,hq⟩ := normalizedLink_ok ht.2.2 (S.named e he)
  have hplace : place target = real q := by rw [place_eq,hq.target]
  have hl : look t (d ++ [c]) = some (.link text) := by
    rw [hd,X.solid e he hsolid]
    simp [Entry.node,ht.1,ht.2.1]
  have hreal : real (components e.path).dropLast = d := by
    rw [real_dropLast (clean_components (S.named e he)).2 (T.rooted e he hsolid),← place_eq,← hd]
    simp
  have hreads := reads_of_turn ne_slash hq.read hstraight.steady
  have hparent : look t d = some .directory := X.parent he (by simp [ht.1]) hd
  have hres : Resolves t (real (components e.path).dropLast) (parts text) (place last) := by
    apply hreads.resolves (fun q n => X.closed) (hreal.symm ▸ hparent)
      (clean_components (S.named e he)).dropLast.2 (hplace ▸ hst)
    · intro h
      rw [← hplace] at h ⊢
      exact hsame h
    · intro d c hc hu hd hn
      rw [← hplace] at hd hn
      exact harr hn d c hc hu hd
    · intro c hcl hcd
      exact hstraight.closed c hcl hcd last hrec
  rw [hreal] at hres
  exact .follow hc hu hl hq.relative (resolves_append_dots hres hr hdir)

/-- Straight links lead to where they end by name. -/
theorem Recorded.arrives (S : Scanned hash version es s) (T : Tidy es) (X : Extracts es t)
    (hstraight : ∀ e ∈ es, ∀ text target, Targets e text target → Straight es t e text)
    (h : Recorded es name last) (hlast : Rests t (place last)) :
    Arrives t (place name) (place last) := by
  induction h with
  | link he ht hend =>
    have hs := hstraight _ he _ _ ht
    refine hs.arrives S T X he ht (.link he ht hend) hlast.standing (fun _ => rfl) ?_
    intro hn d c hc hu hd rest hr hdir
    rcases hlast.node with hl | ⟨bytes,hl⟩
    · exact absurd hl hn
    · have hrest : rest = [] := by
        by_contra hne
        rw [hdir hne] at hl
        cases hl
      subst hrest
      rw [← hd] at hl ⊢
      exact .file hc hu hl
  | chain he ht hrec ih =>
    obtain ⟨f,hf,rfl,hk⟩ := hrec.symlink
    have hs := hstraight _ he _ _ ht
    refine hs.arrives S T X he ht (.chain he ht hrec) (X.standing f hf (by simp [hk])) ?_
      fun _ => ih hlast
    intro hdir
    rw [X.solid f hf (.inr hk)] at hdir
    simp [Entry.node,hk] at hdir

/-- From the root, a path goes through the directories above its end. -/
theorem resolves_standing {d : Path} {cs : List String} {q : Path}
    (hd : ∀ c ∈ d, dot c = false ∧ c ≠ "..") (hdir : ∀ p, p <+: d → look t p = some .directory) :
    Resolves t [] (d ++ cs) q ↔ Resolves t d cs q := by
  induction d using List.reverseRecOn generalizing cs with
  | nil => simp
  | append_singleton d c ih =>
    have hc := hd c (by simp)
    have hl := hdir (d ++ [c]) List.prefix_rfl
    rw [List.append_assoc,List.singleton_append,ih (fun x hx => hd x (List.mem_append_left _ hx))
      fun p hp => hdir p (hp.trans (List.prefix_append _ _)),resolves_name hc.1 hc.2]
    simp [hl]

theorem plain_place (h : Archive.relative name = .ok ()) :
    ∀ c ∈ place name, dot c = false ∧ c ≠ ".." := by
  intro c hc
  obtain ⟨hmem,hdot⟩ := List.mem_filter.1 hc
  have hne := ((clean_components h).1 c hmem).1
  have hd : c ≠ "." := by simpa using hdot
  exact ⟨by simp [dot,hne,hd],(relative_ok h c hmem).2⟩

/-- A link is resolved from its own directory. -/
theorem resolves_link (S : Scanned hash version es s) (X : Extracts es t) {e : Entry} (he : e ∈ es)
    (hg : e.kind ≠ .global) {d : Path} {c : String} (h : d ++ [c] = place e.path) {q : Path} :
    Resolves t [] (place e.path) q ↔ Resolves t d [c] q := by
  have hplain := plain_place (S.named e he)
  rw [← h] at hplain ⊢
  apply resolves_standing
  · intro x hx
    exact hplain x (List.mem_append_left _ hx)
  · intro p hp
    refine X.standing e he hg p (h ▸ hp.trans (List.prefix_append _ _)) ?_
    rw [← h]
    rintro rfl
    have hlen := hp.length_le
    simp at hlen

end

/-! ## Accepted archives -/

section
variable {hash : List UInt8 → String} {version : ℕ} {archive : List (Option Entry)} {files : Files}

/-- What the inventory of an accepted archive rests on. -/
theorem accepted (h : archiveInventory hash version archive = .ok files) :
    ∃ s, Scanned hash version (entries archive) s ∧ Rehashed version s.files files s.links.keys ∧
      ∀ name target, s.links[name]? = some target → ∃ last,
        chase s.links (s.links.size + 1) [] target = some (.ok last) ∧
          Ends version s.links s.files files name last := by
  obtain ⟨s,hs,h⟩ := Fallible.bind_ok h
  split at h
  · cases h
  have S : Scanned hash version (entries archive) s := scan_ok scanned_nil hs
  have hkeys : s.links.toList.map Prod.fst = s.links.keys := Std.ExtTreeMap.map_fst_toList_eq_keys
  obtain ⟨hre,hall⟩ := settle_ok (by rw [hkeys]; exact Std.ExtTreeMap.nodup_keys)
    (fun e he => by rw [← Std.ExtTreeMap.mem_keys,← hkeys]; exact List.mem_map.2 ⟨e,he,rfl⟩) h
  rw [hkeys] at hre
  exact ⟨s,S,hre,fun name target hl =>
    hall (name,target) (Std.ExtTreeMap.mem_toList_iff_getElem?_eq_some.2 hl)⟩

/-- A link is resolved inside the root, to what the inventory recorded for it. -/
structure Led (hash : List UInt8 → String) (version : ℕ) (t : Tree) (files : Files)
    (f : SourceFile) (name last : String) : Prop where
  resolves : Resolves t [] (place name) (place last)
  entry : match files[last]? with
    | some g => ∃ bytes, look t (place last) = some (.file bytes) ∧ g.sha256 = hash bytes ∧
        (version = 1 → f.sha256 = g.sha256)
    | none => ∃ n, look t (place last) = some n

/-- Every link of an inventory leads to the entry recorded for it. -/
def LinkSafe (hash : List UInt8 → String) (version : ℕ) (archive : List (Option Entry))
    (files : Files) : Prop :=
  ∀ name f, files[name]? = some f → f.link.isSome →
    ∃ last, Recorded (entries archive) name last ∧ Led hash version (extracted archive) files f name last

theorem Scanned.symlink {es : List Entry} {s : Scan} (S : Scanned hash version es s)
    (hre : Rehashed version s.files files s.links.keys) {name : String} {f : SourceFile}
    (hf : files[name]? = some f) (hl : f.link.isSome) :
    ∃ e ∈ es, e.path = name ∧ e.kind = .symlink := by
  have hlink := hre.link name
  rw [hf,Option.bind_some] at hlink
  obtain ⟨text,htext⟩ := Option.isSome_iff_exists.1 hl
  rw [htext,eq_comm,Option.bind_eq_some_iff] at hlink
  obtain ⟨g,hg,hgl⟩ := hlink
  obtain ⟨e,he,hp,hr⟩ := S.files name g hg
  rcases hr.1 with ⟨-,hn⟩ | ⟨hk,-⟩
  · rw [hgl] at hn
    cases hn
  · exact ⟨e,he,hp,hk⟩

/-- The checker's search for the end of a link always ends.  In a tidy archive that is
accepted, links whose texts are straight lead to the entries recorded for them; and if all
links do, then every text is straight whose `..` stay clear of links. -/
theorem links_safe (hash : List UInt8 → String) (version : ℕ) (archive : List (Option Entry)) :
    (∀ links target, (chase links (links.size + 1) [] target).isSome) ∧
    ∀ files, archiveInventory hash version archive = .ok files → Tidy (entries archive) →
      ((∀ e ∈ entries archive, ∀ text target, Targets e text target →
        Straight (entries archive) (extracted archive) e text) →
        LinkSafe hash version archive files) ∧
      (LinkSafe hash version archive files → ∀ e ∈ entries archive, ∀ text target,
        Targets e text target →
        Climbs (Free (extracted archive)) (components e.path).dropLast (parts text) →
        Straight (entries archive) (extracted archive) e text) := by
  refine ⟨chase_ends,fun files h T => ?_⟩
  obtain ⟨s,S,hre,hall⟩ := accepted h
  have X : Extracts (entries archive) (extracted archive) := extracts T S.kinds
  constructor
  · intro hstraight name f hf hl
    obtain ⟨e,he,rfl,hk⟩ := S.symlink hre hf hl
    obtain ⟨text,target,ht⟩ := S.targets e he hk
    have hlink : s.links[e.path]? = some target := (S.links _ _).2 ⟨e,he,rfl,text,ht⟩
    obtain ⟨last,hchase,hends⟩ := hall e.path target hlink
    have hrec := recorded_of_chase S hlink hchase
    have hrest := rests_of_ends S X (chase_last hchase) hends
    obtain ⟨c,hc,hu,hd⟩ := S.leaf T he (.inr hk)
    refine ⟨last,hrec,?_,?_⟩
    · rw [resolves_link S X he (by simp [hk]) hd]
      exact hrec.arrives S T X hstraight hrest _ c hc hu hd [] (by simp) (by simp)
    · have hnot : last ∉ s.links.keys := by
        rw [Std.ExtTreeMap.mem_keys,Std.ExtTreeMap.mem_iff_isSome_getElem?,chase_last hchase]
        simp
      rw [hre.same last hnot]
      unfold Ends at hends
      split
      · rename_i g hg
        rw [hg] at hends
        obtain ⟨e',he',rfl,hr⟩ := S.files _ _ hg
        rcases hr.1 with ⟨hk',hn⟩ | ⟨hk',-⟩
        · refine ⟨e'.bytes,?_,?_,?_⟩
          · rw [X.solid e' he' (.inl hk')]
            simp [Entry.node,hk']
          · rw [hr.2,hn]
            rfl
          · intro hv
            obtain ⟨f',hf',hsha⟩ := hends hv
            obtain rfl := Option.some.inj (hf.symm.trans hf')
            exact hsha
        · obtain ⟨text',target',ht'⟩ := S.targets e' he' hk'
          have hl' := (S.links _ _).2 ⟨e',he',rfl,text',ht'⟩
          rw [chase_last hchase] at hl'
          cases hl'
      · rcases hrest.node with hl | ⟨bytes,hl⟩
        · exact ⟨_,hl⟩
        · exact ⟨_,hl⟩
  · intro hsafe e he text target ht hfree
    obtain ⟨q,hq⟩ := normalizedLink_ok ht.2.2 (S.named e he)
    have hsolid : e.solid := .inr ht.1
    obtain ⟨f,hf,hr⟩ := S.kept e he hsolid
    have hmem : e.path ∈ files := by
      rw [hre.mem,Std.ExtTreeMap.mem_iff_isSome_getElem?,hf]
      rfl
    rw [Std.ExtTreeMap.mem_iff_isSome_getElem?] at hmem
    obtain ⟨f',hf'⟩ := Option.isSome_iff_exists.1 hmem
    have hlink := hre.link e.path
    rw [hf,hf',Option.bind_some,Option.bind_some] at hlink
    have hsome : f'.link.isSome := by
      rcases hr.1 with ⟨hk,-⟩ | ⟨-,hl,hs⟩
      · rw [ht.1] at hk
        cases hk
      · rw [hlink,hl]
        exact hs
    obtain ⟨last,hrec,hled⟩ := hsafe e.path f' hf' hsome
    obtain ⟨c,hc,hu,hd⟩ := S.leaf T he hsolid
    have hres := (resolves_link S X he (by simp [ht.1]) hd).1 hled.resolves
    have hparent := X.parent he (by simp [ht.1]) hd
    have hnode : look (extracted archive) (real (components e.path).dropLast ++ [c]) =
        some (.link text) := by
      rw [hd,X.solid e he hsolid]
      simp [Entry.node,ht.1,ht.2.1]
    rw [resolves_name hc hu,hnode] at hres
    rcases hres with ⟨hl,-⟩ | ⟨bytes,hl,-⟩ | ⟨text',hl,-,hres⟩
    · cases hl
    · cases hl
    · obtain rfl : text = text' := by simpa using hl
      rw [List.append_nil] at hres
      have hreads := reads_of_turn ne_slash hq.read hfree
      refine ⟨hreads.steady (fun q n => X.closed) hparent
        (clean_components (S.named e he)).dropLast.2 hres,?_⟩
      intro c hcl hcd last' hrec'
      rw [hrec'.unique S hrec]
      exact directory_of_dot (fun q n => X.closed) hres hparent hcl hcd

/-! ## Two archives -/

def sampleFile (path : String) : Option Entry := some ⟨path,some 0o644,.file,0,none,none,[]⟩

def sampleLink (path text : String) : Option Entry :=
  some ⟨path,some 0o777,.symlink,0,none,some text,[]⟩

/-- By name, `l` leads to `p/x`; the file system leaves the root on its way. -/
def escape : List (Option Entry) :=
  [sampleFile "a/f",sampleFile "p/x",sampleLink "p/q/d" "../../a",
    sampleLink "l" "p/q/d/../../x"]

theorem escape_accepted : ∃ files, archiveInventory (fun _ => "") 2 escape = .ok files ∧
    ¬ LinkSafe (fun _ => "") 2 escape files := by
  have hlook : ((archiveInventory (fun _ => "") 2 escape).toOption.bind fun files => files["l"]?) =
      some ⟨"",true,some "p/q/d/../../x"⟩ := by decide +kernel
  cases hfiles : archiveInventory (fun _ => "") 2 escape with
  | error e => simp [hfiles,Except.toOption] at hlook
  | ok files =>
    refine ⟨files,rfl,fun hsafe => ?_⟩
    have hl : files["l"]? = some ⟨"",true,some "p/q/d/../../x"⟩ := by
      simpa [hfiles,Except.toOption] using hlook
    obtain ⟨last,-,hled⟩ := hsafe "l" _ hl rfl
    have hnone : resolve (extracted escape) 40 [] (place "l") = some none := by decide +kernel
    have hend := (resolve_iff hnone _).1 hled.resolves
    cases hend

/-- A link to a directory, and one that goes up and down again. -/
def around : List (Option Entry) :=
  [sampleFile "a/b/f",sampleLink "d" "a/b",sampleLink "l" "a/../d"]

theorem around_safe : ∃ files, archiveInventory (fun _ => "") 2 around = .ok files ∧
    LinkSafe (fun _ => "") 2 around files := by
  have hlook : (archiveInventory (fun _ => "") 2 around).isOk = true := by decide +kernel
  cases hfiles : archiveInventory (fun _ => "") 2 around with
  | error e => simp [hfiles,Except.isOk,Except.toBool] at hlook
  | ok files =>
    have T : Tidy (entries around) := ⟨by decide +kernel,by decide +kernel⟩
    refine ⟨files,rfl,((links_safe _ _ _).2 files hfiles T).1 ?_⟩
    have hall : ∀ e ∈ entries around, ∀ text ∈ e.link,
        Climbs (Steady (extracted around)) (components e.path).dropLast (parts text) ∧
          (parts text).getLast?.all (fun c => !dot c) = true := by decide +kernel
    intro e he text target ht
    obtain ⟨hsteady,hlast⟩ := hall e he text ht.2.1
    refine ⟨hsteady,fun c hc hd => ?_⟩
    simp [hc,hd] at hlast

end

end Archive
end CanixToolbelt
