import Mathlib.Data.List.SplitOn
import CanixToolbelt.Review

/-! Texts cut at white space, at line ends and at the first of a character. -/
namespace CanixToolbelt
namespace Text

def splitOnce (sep : Char) (cs : List Char) : Option (List Char × List Char) :=
  if sep ∈ cs then some (cs.takeWhile (· ≠ sep),(cs.dropWhile (· ≠ sep)).tail) else none

/-- The words between white space. -/
def splitWhitespace (cs : List Char) : List (List Char) :=
  (cs.splitOnP Review.whitespace).filter (· ≠ [])

def trim (cs : List Char) : List Char :=
  ((cs.dropWhile Review.whitespace).reverse.dropWhile Review.whitespace).reverse

/-- The parts of a text between carriage return and line feed. -/
def splitCrlf : List Char → List (List Char)
  | [] => [[]]
  | [c] => [[c]]
  | c::d::cs =>
    if c = '\r' ∧ d = '\n' then [] :: splitCrlf cs
    else match splitCrlf (d::cs) with
    | [] => [[c]]
    | line::rest => (c::line)::rest

def lower (cs : List Char) : List Char := cs.map Char.toLower

theorem splitOnce_append {sep : Char} {a : List Char} (h : sep ∉ a) (b : List Char) :
    splitOnce sep (a ++ sep::b) = some (a,b) := by
  have ha : ∀ c ∈ a, decide (c ≠ sep) = true := fun c hc => by
    simpa using fun heq : c = sep => h (heq ▸ hc)
  unfold splitOnce
  rw [if_pos (by simp),List.takeWhile_append_of_pos ha,List.dropWhile_append_of_pos ha]
  simp

theorem splitWhitespace_append (a : List Char) {s : Char} (hs : Review.whitespace s) (b : List Char) :
    splitWhitespace (a ++ s::b) = splitWhitespace a ++ splitWhitespace b := by
  unfold splitWhitespace
  rw [List.splitOnP_append_cons a b hs,List.filter_append]

theorem splitWhitespace_nil : splitWhitespace [] = [] := by simp [splitWhitespace]

theorem splitWhitespace_last {a : List Char} (hne : a ≠ [])
    (h : ∀ c ∈ a, Review.whitespace c = false) : splitWhitespace a = [a] := by
  unfold splitWhitespace
  rw [List.splitOnP_eq_singleton h]
  simp [hne]

theorem splitWhitespace_word {a : List Char} (hne : a ≠ []) (h : ∀ c ∈ a, Review.whitespace c = false)
    {s : Char} (hs : Review.whitespace s) (b : List Char) :
    splitWhitespace (a ++ s::b) = a :: splitWhitespace b := by
  rw [splitWhitespace_append a hs,splitWhitespace_last hne h]
  rfl

theorem dropWhile_free {p : Char → Bool} {a b : List Char} (ha : ∀ c ∈ a, p c)
    (hb : ∀ c ∈ b.head?, p c = false) : (a ++ b).dropWhile p = b := by
  rw [List.dropWhile_append_of_pos ha]
  cases b with
  | nil => rfl
  | cons c b => rw [List.dropWhile_cons_of_neg (by simpa using hb c rfl)]

/-- White space around a word is trimmed. -/
theorem trim_around {a v b : List Char} (ha : ∀ c ∈ a, Review.whitespace c)
    (hv : ∀ c ∈ v, Review.whitespace c = false) (hne : v ≠ []) (hb : ∀ c ∈ b, Review.whitespace c) :
    trim (a ++ (v ++ b)) = v := by
  have hfront : ∀ c ∈ (v ++ b).head?, Review.whitespace c = false := by
    obtain ⟨x,v,rfl⟩ := List.exists_cons_of_ne_nil hne
    intro c hc
    obtain rfl : x = c := by simpa using hc
    exact hv x (by simp)
  have hback : ∀ c ∈ v.reverse.head?, Review.whitespace c = false := fun c hc =>
    hv c (List.mem_reverse.mp (List.mem_of_mem_head? hc))
  unfold trim
  rw [dropWhile_free ha hfront,List.reverse_append,
    dropWhile_free (fun c hc => hb c (List.mem_reverse.mp hc)) hback,List.reverse_reverse]

theorem splitCrlf_free {a : List Char} (h : '\r' ∉ a) : splitCrlf a = [a] := by
  induction a using splitCrlf.induct with
  | case1 => rfl
  | case2 c => rfl
  | case3 c d cs hcd => exact absurd (by simp [hcd.1]) h
  | case4 c d cs hcd hnil ih => rw [hnil] at ih; exact absurd (ih fun hin => h (by simp [hin])) (by simp)
  | case5 c d cs hcd line rest hsplit ih =>
    have hrest := ih fun hin => h (List.mem_cons_of_mem c hin)
    rw [splitCrlf,if_neg hcd,hrest]

theorem splitCrlf_append {a : List Char} (h : '\r' ∉ a) (b : List Char) :
    splitCrlf (a ++ '\r' :: '\n' :: b) = a :: splitCrlf b := by
  induction a with
  | nil =>
    rw [List.nil_append,splitCrlf]
    simp
  | cons c a ih =>
    have hc : c ≠ '\r' := fun heq => h (by simp [heq])
    have hrest := ih fun hin => h (List.mem_cons_of_mem c hin)
    obtain ⟨d,ds,hds⟩ := List.exists_cons_of_ne_nil (List.append_ne_nil_of_right_ne_nil a
      (List.cons_ne_nil '\r' ('\n'::b)))
    rw [List.cons_append,hds,splitCrlf,if_neg fun hcd => hc hcd.1,← hds,hrest]

end Text
end CanixToolbelt
