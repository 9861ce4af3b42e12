import CanixToolbelt.Utf8

/-! Texts cut at byte offsets, and the matches of a pattern in them. -/
namespace CanixToolbelt
namespace Substrings

/-- `str::len`. -/
def size (cs : List Char) : ℕ := (Utf8.encode cs).length

@[simp] theorem size_nil : size [] = 0 := rfl

@[simp] theorem size_cons (c : Char) (cs : List Char) : size (c::cs) = c.utf8Size + size cs := by
  simp [size,Utf8.encode_cons]

@[simp] theorem size_append (cs ds : List Char) : size (cs ++ ds) = size cs + size ds := by
  simp [size]

/-- The text before and the text after a byte offset, unless a character or the end stands in the
way. -/
def cut : ℕ → List Char → Option (List Char × List Char)
  | 0, cs => some ([],cs)
  | _+1, [] => none
  | n+1, c::cs =>
    if c.utf8Size ≤ n+1 then (cut (n+1 - c.utf8Size) cs).map fun p => (c::p.1,p.2) else none

/-- `&text[start..]`, where it does not panic. -/
def sliceFrom (cs : List Char) (start : ℕ) : Option (List Char) := (cut start cs).map Prod.snd

/-- `&text[start..stop]`, where it does not panic. -/
def slice (cs : List Char) (start stop : ℕ) : Option (List Char) :=
  if start ≤ stop then do
    let rest ← sliceFrom cs start
    let (part,_) ← cut (stop - start) rest
    some part
  else none

theorem cut_append (a b : List Char) : cut (size a) (a ++ b) = some (a,b) := by
  induction a with
  | nil => cases b <;> rfl
  | cons c a ih =>
    have hpos := c.utf8Size_pos
    obtain ⟨n,hn⟩ := Nat.exists_eq_add_of_le' (show 1 ≤ size (c::a) by simp; omega)
    rw [hn,List.cons_append,cut]
    rw [size_cons] at hn
    rw [if_pos (by omega),show n + 1 - c.utf8Size = size a by omega,ih]
    rfl

theorem sliceFrom_append (a b : List Char) : sliceFrom (a ++ b) (size a) = some b := by
  rw [sliceFrom,cut_append]
  rfl

theorem slice_append (a b c : List Char) :
    slice (a ++ (b ++ c)) (size a) (size a + size b) = some b := by
  simp [slice,sliceFrom_append,cut_append]

theorem slice_backward {cs : List Char} {start stop : ℕ} (h : stop < start) :
    slice cs start stop = none := if_neg (not_le.mpr h)

/-- Two splits of one text at one offset are the same. -/
theorem split_unique {a b a' b' : List Char} (h : a ++ b = a' ++ b') (hsize : size a = size a') :
    a = a' ∧ b = b' := by
  have hcut := cut_append a b
  rw [h,hsize,cut_append] at hcut
  obtain ⟨rfl,rfl⟩ := Prod.mk.inj (Option.some.inj hcut)
  exact ⟨rfl,rfl⟩

/-- Of two splits of one text, the one at the greater offset cuts the rest of the other. -/
theorem split_le {a b a' b' : List Char} (h : a ++ b = a' ++ b') (hsize : size a ≤ size a') :
    ∃ m, a' = a ++ m ∧ b = m ++ b' := by
  rcases List.append_eq_append_iff.mp h with ⟨m,ha,hb⟩ | ⟨m,ha,hb⟩
  · exact ⟨m,ha,hb⟩
  · obtain rfl : m = [] := by
      cases m with
      | nil => rfl
      | cons c m =>
        have hpos := c.utf8Size_pos
        rw [ha,size_append,size_cons] at hsize
        omega
    exact ⟨[],by simpa using ha.symm,by simpa using hb.symm⟩

/-! ## Matches -/

/-- `str::find` of a character. -/
def find (c : Char) (cs : List Char) : Option ℕ :=
  if c ∈ cs then some (size (cs.takeWhile (· ≠ c))) else none

theorem find_append {c : Char} {a : List Char} (h : c ∉ a) (b : List Char) :
    find c (a ++ c::b) = some (size a) := by
  have ha : ∀ x ∈ a, decide (x ≠ c) = true := fun x hx => by
    simpa using fun heq : x = c => h (heq ▸ hx)
  rw [find,if_pos (by simp),List.takeWhile_append_of_pos ha]
  simp

theorem find_none {c : Char} {cs : List Char} (h : c ∉ cs) : find c cs = none := if_neg h

/-- A text splits at the first of its characters that is `c`. -/
theorem exists_first {c : Char} {cs : List Char} (h : c ∈ cs) :
    ∃ a b, cs = a ++ c::b ∧ c ∉ a := by
  obtain ⟨a,b,hcs,ha⟩ := List.eq_append_cons_of_mem h
  exact ⟨a,b,hcs,ha⟩

/-- The offsets `str::match_indices` yields for a pattern that is not empty: from the left, and
each match behind the last one. -/
def matchIndices (pattern : List Char) : ℕ → ℕ → List Char → List ℕ
  | _, _, [] => []
  | skip+1, offset, c::cs => matchIndices pattern skip (offset + c.utf8Size) cs
  | 0, offset, c::cs =>
    if pattern.isPrefixOf (c::cs) then
      offset :: matchIndices pattern (pattern.length - 1) (offset + c.utf8Size) cs
    else matchIndices pattern 0 (offset + c.utf8Size) cs

/-- `str::replace` of a pattern that is not empty. -/
def replace (pattern new : List Char) : ℕ → List Char → List Char
  | _, [] => []
  | skip+1, _::cs => replace pattern new skip cs
  | 0, c::cs =>
    if pattern.isPrefixOf (c::cs) then new ++ replace pattern new (pattern.length - 1) cs
    else c :: replace pattern new 0 cs

/-- Every offset at which the pattern stands. -/
def occurrences (pattern : List Char) : ℕ → List Char → List ℕ
  | _, [] => []
  | offset, c::cs =>
    if pattern.isPrefixOf (c::cs) then offset :: occurrences pattern (offset + c.utf8Size) cs
    else occurrences pattern (offset + c.utf8Size) cs

theorem matchIndices_skip {p : Char} {ps : List Char} {skip : ℕ} {cs : List Char}
    (h : p ∉ cs.take skip) (offset : ℕ) :
    matchIndices (p::ps) skip offset cs = matchIndices (p::ps) 0 offset cs := by
  induction cs generalizing skip offset with
  | nil => cases skip <;> rfl
  | cons c cs ih =>
    cases skip with
    | zero => rfl
    | succ skip =>
      rw [List.take_succ_cons,List.mem_cons,not_or] at h
      have hprefix : ¬ (p::ps).isPrefixOf (c::cs) = true := by
        simp [h.1]
      rw [matchIndices,matchIndices,if_neg hprefix]
      exact ih h.2 _

/-- A pattern whose first character does not stand in its rest cannot overlap itself. -/
theorem matchIndices_eq {p : Char} {ps : List Char} (hp : p ∉ ps) (offset : ℕ) (cs : List Char) :
    matchIndices (p::ps) 0 offset cs = occurrences (p::ps) offset cs := by
  induction cs generalizing offset with
  | nil => rfl
  | cons c cs ih =>
    rw [matchIndices,occurrences]
    split
    · rename_i hprefix
      have hps : ps <+: cs := (List.cons_prefix_cons.mp (List.isPrefixOf_iff_prefix.mp hprefix)).2
      rw [List.length_cons,Nat.add_sub_cancel,matchIndices_skip,ih]
      rwa [List.prefix_iff_eq_take.mp hps] at hp
    · exact ih _

theorem replace_skip (pattern new : List Char) (a b : List Char) :
    replace pattern new a.length (a ++ b) = replace pattern new 0 b := by
  induction a with
  | nil => rfl
  | cons c a ih => exact ih

theorem replace_match {p : Char} {ps : List Char} (new b : List Char) :
    replace (p::ps) new 0 (p :: (ps ++ b)) = new ++ replace (p::ps) new 0 b := by
  rw [replace,if_pos (by simp),List.length_cons,Nat.add_sub_cancel,replace_skip]

theorem replace_other {pattern new : List Char} {c : Char} {cs : List Char}
    (h : ¬ pattern <+: c::cs) : replace pattern new 0 (c::cs) = c :: replace pattern new 0 cs := by
  rw [replace,if_neg fun hprefix => h (List.isPrefixOf_iff_prefix.mp hprefix)]

/-- `new` stands where the pattern stood, everything else is kept; the pattern is taken from the
left wherever it stands. -/
inductive Replaced (pattern new : List Char) : List Char → List Char → Prop
  | nil : Replaced pattern new [] []
  | kept {c : Char} {cs ds : List Char} (hne : ¬ pattern <+: c::cs)
      (h : Replaced pattern new cs ds) : Replaced pattern new (c::cs) (c::ds)
  | swapped {cs ds : List Char} (h : Replaced pattern new cs ds) :
      Replaced pattern new (pattern ++ cs) (new ++ ds)

theorem replaced_replace {pattern : List Char} (new : List Char) (hne : pattern ≠ [])
    (cs : List Char) : Replaced pattern new cs (replace pattern new 0 cs) := by
  obtain ⟨p,ps,rfl⟩ := List.exists_cons_of_ne_nil hne
  induction hn : cs.length using Nat.strong_induction_on generalizing cs with
  | _ n ih =>
    cases cs with
    | nil => exact .nil
    | cons c cs =>
      by_cases hprefix : p::ps <+: c::cs
      · obtain ⟨rfl,t,rfl⟩ := List.cons_prefix_cons.mp hprefix
        rw [replace_match]
        exact .swapped (ih t.length (by simp at hn; omega) t rfl)
      · rw [replace_other hprefix]
        exact .kept hprefix (ih cs.length (by simp at hn; omega) cs rfl)

end Substrings
end CanixToolbelt
