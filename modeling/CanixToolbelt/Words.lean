import Mathlib.Data.List.TakeWhile

/-! Words between separators. Leading words of a text are a leading part of it, and what follows
them begins with a separator. -/
namespace CanixToolbelt
namespace Words

variable {α : Type} {p : α → Bool}

/-- The parts between separators that are not empty. -/
def words (p : α → Bool) (s : List α) : List (List α) :=
  (s.splitOnP p).filter fun w => !w.isEmpty

/-- Nothing follows, or a separator. -/
def Ends (p : α → Bool) (s : List α) : Prop := ∀ c ∈ s.head?, p c = true

@[simp] theorem Ends.nil : Ends p [] := fun c hc => by simp at hc

@[simp] theorem Ends.cons {c : α} {s : List α} : Ends p (c::s) ↔ p c = true := by
  simp [Ends]

@[simp] theorem words_nil : words p [] = [] := by simp [words]

theorem words_blank {c : α} (h : p c) (s : List α) : words p (c::s) = words p s := by
  simp [words,List.splitOnP_cons_eq_if_modifyHead,h]

theorem words_last {w : List α} (hne : w ≠ []) (h : ∀ c ∈ w, p c = false) :
    words p w = [w] := by
  unfold words
  rw [List.splitOnP_eq_singleton h]
  simp [hne]

theorem words_word {w r : List α} (hne : w ≠ []) (h : ∀ c ∈ w, p c = false)
    (hr : Ends p r) : words p (w ++ r) = w :: words p r := by
  cases r with
  | nil => rw [List.append_nil,words_last hne h,words_nil]
  | cons c r =>
    have hc := Ends.cons.mp hr
    have hlast := words_last hne h
    unfold words at hlast ⊢
    rw [List.splitOnP_append_cons w r hc,List.filter_append,hlast,
      List.splitOnP_cons_eq_if_modifyHead,if_pos hc]
    rfl

/-- A text is blanks and words. -/
theorem induct {P : List α → Prop} (nil : P [])
    (blank : ∀ c s, p c = true → P s → P (c::s))
    (word : ∀ w r, w ≠ [] → (∀ c ∈ w, p c = false) → Ends p r → P r → P (w ++ r)) :
    ∀ s, P s := by
  intro s
  induction hn : s.length using Nat.strongRecOn generalizing s with
  | ind n ih =>
    cases s with
    | nil => exact nil
    | cons c s =>
      simp only [List.length_cons] at hn
      by_cases hc : p c = true
      · exact blank c s hc (ih s.length (by omega) s rfl)
      · have hc : p c = false := by simpa using hc
        have hle := List.length_dropWhile_le (fun c => !p c) s
        have hrest := ih (s.dropWhile fun c => !p c).length (by omega) _ rfl
        have hfree : ∀ d ∈ c :: s.takeWhile (fun c => !p c), p d = false := by
          intro d hd
          rcases List.mem_cons.mp hd with rfl | hd
          · exact hc
          · simpa using List.mem_takeWhile_imp hd
        have hends : Ends p (s.dropWhile fun c => !p c) := by
          intro d hd
          have hnot := List.head?_dropWhile_not (fun c => !p c) s
          rw [hd] at hnot
          simpa using hnot
        have h := word _ _ (List.cons_ne_nil _ _) hfree hends hrest
        rwa [List.cons_append,List.takeWhile_append_dropWhile] at h

theorem words_append {s : List α} (hs : Ends p s) (a : List α) :
    words p (a ++ s) = words p a ++ words p s := by
  induction a using induct (p := p) with
  | nil => simp
  | blank c a hc ih => rw [List.cons_append,words_blank hc,words_blank hc,ih]
  | word w r hne hw hr ih =>
    have hends : Ends p (r ++ s) := by
      cases r with
      | nil => exact hs
      | cons c r => exact Ends.cons.mpr (Ends.cons.mp hr)
    rw [List.append_assoc,words_word hne hw hends,words_word hne hw hr,ih,List.cons_append]

theorem mem_word {s : List α} {c : α} (hc : p c = false) (h : c ∈ s) :
    ∃ w ∈ words p s, c ∈ w := by
  induction s using induct (p := p) with
  | nil => cases h
  | blank d s hd ih =>
    rw [words_blank hd]
    refine ih ((List.mem_cons.mp h).resolve_left fun heq => ?_)
    rw [heq,hd] at hc
    cases hc
  | word w r hne hw hr ih =>
    rw [words_word hne hw hr]
    rcases List.mem_append.mp h with h | h
    · exact ⟨w,List.mem_cons_self,h⟩
    · obtain ⟨v,hv,hin⟩ := ih h
      exact ⟨v,List.mem_cons_of_mem _ hv,hin⟩

theorem word_free {s w : List α} (h : w ∈ words p s) : w ≠ [] ∧ ∀ c ∈ w, p c = false := by
  induction s using induct (p := p) with
  | nil => simp at h
  | blank c s hc ih =>
    rw [words_blank hc] at h
    exact ih h
  | word v r hne hv hr ih =>
    rw [words_word hne hv hr] at h
    rcases List.mem_cons.mp h with rfl | h
    · exact ⟨hne,hv⟩
    · exact ih h

/-- The first words are those of a leading part, after which a word ends. -/
theorem words_split {s : List α} {xs ys : List (List α)} (hne : xs ≠ [])
    (h : words p s = xs ++ ys) :
    ∃ a r, s = a ++ r ∧ words p a = xs ∧ Ends p r ∧ ∃ b c, a = b ++ [c] ∧ p c = false := by
  induction s using induct (p := p) generalizing xs with
  | nil =>
    rw [words_nil] at h
    exact absurd (List.append_eq_nil_iff.mp h.symm).1 hne
  | blank c s hc ih =>
    rw [words_blank hc] at h
    obtain ⟨a,r,rfl,ha,hr,b,d,rfl,hd⟩ := ih hne h
    exact ⟨c::(b ++ [d]),r,rfl,by rw [words_blank hc,ha],hr,c::b,d,rfl,hd⟩
  | word w r hw hfree hr ih =>
    rw [words_word hw hfree hr] at h
    obtain ⟨x,xs,rfl⟩ := List.exists_cons_of_ne_nil hne
    obtain ⟨rfl,htail⟩ : w = x ∧ words p r = xs ++ ys := List.cons.inj h
    cases xs with
    | nil =>
      have hlast := List.dropLast_concat_getLast hw
      exact ⟨w,r,rfl,words_last hw hfree,hr,_,_,hlast.symm,hfree _ (List.getLast_mem hw)⟩
    | cons x xs =>
      obtain ⟨a,r,rfl,ha,hends,b,d,rfl,hd⟩ := ih (List.cons_ne_nil _ _) htail
      have hmid : Ends p (b ++ [d]) := by
        intro e he
        refine hr e ?_
        rw [List.head?_append,Option.mem_def.mp he,Option.some_or]
        exact rfl
      exact ⟨w ++ (b ++ [d]),r,by simp,by rw [words_word hw hfree hmid,ha],hends,
        w ++ b,d,by rw [List.append_assoc],hd⟩

/-- Words joined by a separator are taken apart again. -/
theorem words_intercalate {c : α} (hc : p c) {ws : List (List α)}
    (h : ∀ w ∈ ws, w ≠ [] ∧ ∀ c ∈ w, p c = false) : words p ([c].intercalate ws) = ws := by
  induction ws with
  | nil => simp
  | cons w ws ih =>
    obtain ⟨hne,hw⟩ := h w List.mem_cons_self
    cases ws with
    | nil => simpa using words_last hne hw
    | cons v ws =>
      have hends : Ends p (c :: [c].intercalate (v::ws)) := Ends.cons.mpr hc
      rw [List.intercalate_cons_cons,List.append_assoc,List.singleton_append,
        words_word hne hw hends,words_blank hc,ih fun u hu => h u (List.mem_cons_of_mem _ hu)]

end Words
end CanixToolbelt
