import Mathlib.Data.List.Infix

/-! Texts cut at a prefix, at a suffix or at the first occurrence of a delimiter. -/
namespace CanixToolbelt
namespace Delimited

variable {α : Type}

section Cutting
variable [DecidableEq α]

/-- What follows the prefix `p`. -/
def stripPrefix (p cs : List α) : Option (List α) :=
  if p.isPrefixOf cs then some (cs.drop p.length) else none

/-- What precedes the suffix `p`. -/
def stripSuffix (p cs : List α) : Option (List α) :=
  if p.isSuffixOf cs then some (cs.take (cs.length - p.length)) else none

/-- What precedes the first occurrence of `delim`. -/
def before (delim : List α) : List α → Option (List α)
  | [] => if delim.isPrefixOf [] then some [] else none
  | c::cs => if delim.isPrefixOf (c::cs) then some [] else (before delim cs).map (c :: ·)

theorem stripPrefix_append (p cs : List α) : stripPrefix p (p ++ cs) = some cs := by
  simp [stripPrefix]

theorem stripSuffix_append (cs p : List α) : stripSuffix p (cs ++ p) = some cs := by
  simp [stripSuffix]

theorem stripPrefix_some {p cs ds : List α} (h : stripPrefix p cs = some ds) : cs = p ++ ds := by
  unfold stripPrefix at h
  split at h
  · rename_i hp
    obtain ⟨t,rfl⟩ := List.isPrefixOf_iff_prefix.mp hp
    obtain rfl := Option.some.inj h
    simp
  · cases h

theorem stripSuffix_some {p cs ds : List α} (h : stripSuffix p cs = some ds) : cs = ds ++ p := by
  unfold stripSuffix at h
  split at h
  · rename_i hp
    obtain ⟨t,rfl⟩ := List.isSuffixOf_iff_suffix.mp hp
    obtain rfl := Option.some.inj h
    simp
  · cases h

variable {delim : List α}

theorem before_some {cs a : List α} (h : before delim cs = some a) :
    ∃ b, cs = a ++ (delim ++ b) := by
  induction cs generalizing a with
  | nil =>
    unfold before at h
    split at h
    · rename_i hp
      obtain rfl := Option.some.inj h
      obtain ⟨b,hb⟩ := List.isPrefixOf_iff_prefix.mp hp
      exact ⟨b,by rw [hb]; rfl⟩
    · cases h
  | cons c cs ih =>
    unfold before at h
    split at h
    · rename_i hp
      obtain rfl := Option.some.inj h
      obtain ⟨b,hb⟩ := List.isPrefixOf_iff_prefix.mp hp
      exact ⟨b,by rw [hb]; rfl⟩
    · obtain ⟨a,ha,rfl⟩ := Option.map_eq_some_iff.mp h
      obtain ⟨b,hb⟩ := ih ha
      exact ⟨b,by rw [hb]; rfl⟩

/-- The first occurrence stays the first when more is appended. -/
theorem before_extend {cs a : List α} (h : before delim cs = some a) (e : List α) :
    before delim (cs ++ e) = some a := by
  induction cs generalizing a with
  | nil =>
    unfold before at h
    split at h
    · rename_i hp
      obtain rfl : delim = [] := by simpa using hp
      obtain rfl := Option.some.inj h
      cases e <;> simp [before]
    · cases h
  | cons c cs ih =>
    unfold before at h
    rw [List.cons_append]
    unfold before
    split at h
    · rename_i hp
      obtain rfl := Option.some.inj h
      have hpre : delim <+: c :: (cs ++ e) :=
        (List.isPrefixOf_iff_prefix.mp hp).trans ⟨e,by simp⟩
      rw [if_pos (List.isPrefixOf_iff_prefix.mpr hpre)]
    · rename_i hp
      obtain ⟨a,ha,rfl⟩ := Option.map_eq_some_iff.mp h
      obtain ⟨b,hb⟩ := before_some ha
      -- an occurrence in front would end within the text, as one stands behind
      have hnot : ¬ delim <+: c :: (cs ++ e) := by
        intro hin
        refine hp (List.isPrefixOf_iff_prefix.mpr ?_)
        have hcs : c::cs <+: c :: (cs ++ e) := ⟨e,by simp⟩
        refine List.prefix_of_prefix_length_le hin hcs ?_
        simp only [hb,List.length_cons,List.length_append]
        omega
      rw [if_neg (mt List.isPrefixOf_iff_prefix.mp hnot),ih ha]
      rfl

/-- Without an occurrence in `a`, or one that goes on behind it, the text is cut behind `a`. -/
theorem before_append {a : List α} (hlast : ∀ x ∈ a.getLast?, x ∉ delim) (h : ¬ delim <:+: a)
    (b : List α) : before delim (a ++ (delim ++ b)) = some a := by
  induction a with
  | nil =>
    cases delim with
    | nil => cases b <;> simp [before]
    | cons d ds => simp [before]
  | cons c a ih =>
    have hfront : ¬ delim <+: c :: (a ++ (delim ++ b)) := by
      intro hfront
      have ha : c::a <+: c :: (a ++ (delim ++ b)) := ⟨delim ++ b,by simp⟩
      rcases List.prefix_or_prefix_of_prefix hfront ha with hin | hout
      · exact h hin.isInfix
      · have hmem := List.getLast_mem (List.cons_ne_nil c a)
        exact hlast _ (List.getLast?_eq_some_getLast (List.cons_ne_nil c a)) (hout.subset hmem)
    have hrest := ih (fun x hx => hlast x ?_) fun hin => h (hin.trans (List.suffix_cons c a).isInfix)
    · simp only [List.cons_append,before]
      rw [if_neg (by rwa [List.isPrefixOf_iff_prefix]),hrest]
      rfl
    · cases a with
      | nil => cases hx
      | cons d ds => simpa [List.getLast?_cons_cons] using hx

/-- An occurrence in `a` has the text cut inside it. -/
theorem before_infix {a : List α} (hd : delim ≠ []) (h : delim <:+: a) (b : List α) :
    ∃ c d, before delim (a ++ b) = some c ∧ a = c ++ d ∧ d ≠ [] := by
  induction a with
  | nil => exact absurd (List.infix_nil.mp h) hd
  | cons x a ih =>
    by_cases hx : delim <+: x :: (a ++ b)
    · refine ⟨[],x::a,?_,rfl,List.cons_ne_nil x a⟩
      simp [before,hx]
    · have hin : delim <:+: a := by
        refine (List.infix_cons_iff.mp h).resolve_left fun hfront => hx ?_
        exact hfront.trans ⟨b,rfl⟩
      obtain ⟨c,d,hc,ha,hne⟩ := ih hin
      refine ⟨x::c,d,?_,by rw [ha]; rfl,hne⟩
      simp only [List.cons_append,before]
      rw [if_neg (by rwa [List.isPrefixOf_iff_prefix]),hc]
      rfl

/-- Without the delimiter's first element, `a` is passed over. -/
theorem before_free {d : α} {ds a : List α} (h : d ∉ a) (b : List α) :
    before (d::ds) (a ++ b) = (before (d::ds) b).map (a ++ ·) := by
  induction a with
  | nil => simp
  | cons c a ih =>
    have hfront : ¬ d::ds <+: c :: (a ++ b) := by
      intro hfront
      obtain ⟨rfl,-⟩ := List.cons_prefix_cons.mp hfront
      exact h (by simp)
    have hcons : before (d::ds) (c :: (a ++ b)) = (before (d::ds) (a ++ b)).map (c :: ·) := by
      rw [before,if_neg (mt List.isPrefixOf_iff_prefix.mp hfront)]
    rw [List.cons_append,hcons,ih fun hd => h (by simp [hd]),Option.map_map]
    rfl

theorem before_self {d : α} {ds : List α} (b : List α) :
    before (d::ds) (d :: (ds ++ b)) = some [] := by
  have hpre : d::ds <+: d :: (ds ++ b) := ⟨b,by simp⟩
  unfold before
  rw [if_pos (List.isPrefixOf_iff_prefix.mpr hpre)]

end Cutting

/-! ## Occurrences in a concatenation -/

/-- An element that a word lacks keeps its occurrences on either side. -/
theorem infix_append_cons {w a b : List α} {c : α} (hc : c ∉ w) :
    w <:+: a ++ c::b ↔ w <:+: a ∨ w <:+: b := by
  constructor
  · rintro ⟨s,t,h⟩
    rw [List.append_assoc] at h
    rcases List.append_eq_append_iff.mp h with ⟨a',rfl,hrest⟩ | ⟨s',rfl,hrest⟩
    · rcases List.append_eq_append_iff.mp hrest with ⟨a'',rfl,-⟩ | ⟨w',rfl,hright⟩
      · exact .inl ⟨s,a'',by simp⟩
      · cases w' with
        | nil => exact .inl ⟨s,[],by simp⟩
        | cons d ds =>
          obtain ⟨rfl,-⟩ := List.cons.inj hright
          exact absurd (by simp) hc
    · cases s' with
      | nil =>
        cases w with
        | nil => exact .inl (List.nil_infix)
        | cons d ds =>
          obtain ⟨rfl,-⟩ := List.cons.inj hrest
          exact absurd (by simp) hc
      | cons d ds =>
        obtain ⟨-,hb⟩ := List.cons.inj hrest
        exact .inr ⟨ds,t,by rw [List.append_assoc]; exact hb.symm⟩
  · rintro (h | h)
    · exact h.trans (List.prefix_append a _).isInfix
    · exact h.trans ((List.suffix_cons c b).trans (List.suffix_append a _)).isInfix

theorem infix_append_other {w a b : List α} (hw : w ≠ []) (ha : ∀ c ∈ a, c ∉ w) :
    w <:+: a ++ b ↔ w <:+: b := by
  induction a with
  | nil => rfl
  | cons c a ih =>
    have h := infix_append_cons (a := []) (b := a ++ b) (ha c (by simp))
    rw [List.nil_append] at h
    rw [List.cons_append,h,ih fun d hd => ha d (by simp [hd])]
    simp [hw]

section Replaced
variable {w : List α} {f : α → List α}

/-- Elements outside `w` may be replaced by others outside it. -/
def Spares (w : List α) (f : α → List α) : Prop :=
  ∀ c, f c = [c] ∨ (c ∉ w ∧ f c ≠ [] ∧ ∀ x ∈ f c, x ∉ w)

theorem prefix_flatMap (hf : Spares w f) {v s : List α} (hv : v ⊆ w) :
    v <+: s.flatMap f ↔ v <+: s := by
  induction s generalizing v with
  | nil => rfl
  | cons c s ih =>
    cases v with
    | nil => simp
    | cons x v =>
      rcases hf c with hc | ⟨hc,hne,hout⟩
      · rw [List.flatMap_cons,hc,List.singleton_append,List.cons_prefix_cons,List.cons_prefix_cons,
          ih fun y hy => hv (by simp [hy])]
      · have hx : x ∈ w := hv (by simp)
        rw [List.flatMap_cons]
        cases he : f c with
        | nil => exact absurd he hne
        | cons y ys =>
          rw [List.cons_append,List.cons_prefix_cons,List.cons_prefix_cons]
          have hy : x ≠ y := fun h => hout y (by simp [he]) (h ▸ hx)
          have hxc : x ≠ c := fun h => hc (h ▸ hx)
          simp [hy,hxc]

theorem infix_flatMap (hf : Spares w f) (hw : w ≠ []) {s : List α} :
    w <:+: s.flatMap f ↔ w <:+: s := by
  induction s with
  | nil => rfl
  | cons c s ih =>
    rcases hf c with hc | ⟨hc,-,hout⟩
    · have hfront := prefix_flatMap hf (s := c::s) (List.Subset.refl w)
      rw [List.flatMap_cons,hc,List.singleton_append] at hfront
      rw [List.flatMap_cons,hc,List.singleton_append,List.infix_cons_iff,List.infix_cons_iff,ih,hfront]
    · have hcons : w <:+: [c] ++ s ↔ w <:+: s := infix_append_other hw (by simpa using hc)
      rw [List.flatMap_cons,infix_append_other hw hout,ih,← hcons]
      rfl

end Replaced

end Delimited
end CanixToolbelt
