import CanixToolbelt.CanonicalText
import CanixToolbelt.JsonSource

/-! JSON text over several lines, and that it is read back as it was written. -/
namespace CanixToolbelt
namespace Json

open Canonical (join)

/-- A line break and `n` levels of indentation. -/
def newline (n : ℕ) : List Char := '\n' :: List.replicate (2*n) ' '

mutual
/-- The text of a value whose first line is indented by `n` levels. -/
def pretty (n : ℕ) : Json → List Char
  | .arr items =>
    if items = [] then ['[',']']
    else '[' :: join (prettyItems (n+1) items) ++ (newline n ++ [']'])
  | .obj fields =>
    if fields = [] then ['{','}']
    else '{' :: join (prettyFields (n+1) fields) ++ (newline n ++ ['}'])
  | .null => render .null
  | .bool b => render (.bool b)
  | .int i => render (.int i)
  | .float text => render (.float text)
  | .str s => render (.str s)
def prettyItems (n : ℕ) : List Json → List (List Char)
  | [] => []
  | x::xs => (newline n ++ pretty n x) :: prettyItems n xs
def prettyFields (n : ℕ) : List (String × Json) → List (List Char)
  | [] => []
  | (k,x)::fs => (newline n ++ renderString k ++ ':' :: ' ' :: pretty n x) :: prettyFields n fs
end

theorem prettyItems_eq (n : ℕ) (xs : List Json) :
    prettyItems n xs = xs.map fun x => newline n ++ pretty n x := by
  induction xs with
  | nil => rfl
  | cons x xs ih => simp [prettyItems,ih]

theorem prettyFields_eq (n : ℕ) (fs : List (String × Json)) : prettyFields n fs =
    fs.map fun f => newline n ++ renderString f.1 ++ ':' :: (' ' :: pretty n f.2) := by
  induction fs with
  | nil => rfl
  | cons f fs ih => simp [prettyFields,ih]

theorem newline_blank (n : ℕ) : ∀ c ∈ newline n, blank c = true := by
  intro c hc
  rcases List.mem_cons.mp hc with rfl | hc
  · rfl
  · rw [(List.mem_replicate.mp hc).2]
    rfl

theorem skip_skip {l : List Char} (hl : ∀ c ∈ l, blank c = true) (d : ℕ) (cs : List Char) :
    readSource d (l ++ cs) = readSource d cs := by
  unfold readSource
  rw [Canonical.skip_blank hl]

theorem readItems_skip {lead : List Char} (hl : ∀ c ∈ lead, blank c = true) (d n : ℕ)
    (cs : List Char) : readItems (readSource d) n (lead ++ cs) = readItems (readSource d) n cs := by
  cases n with
  | zero => rfl
  | succ n => simp only [readItems,skip_skip hl]

theorem readFields_skip {lead : List Char} (hl : ∀ c ∈ lead, blank c = true) (d n : ℕ)
    (cs : List Char) : readFields (readSource d) n (lead ++ cs) = readFields (readSource d) n cs := by
  cases n with
  | zero => rfl
  | succ n => simp only [readFields,Canonical.skip_blank hl]

theorem pretty_head {d : ℕ} {v : Json} (h : Written d v) (n : ℕ) :
    ∃ c cs, pretty n v = c::cs ∧ blank c = false ∧ c ≠ ']' := by
  have hrender := written_head h
  cases h with
  | null => exact hrender
  | bool b => exact hrender
  | int hl hu => exact hrender
  | str s => exact hrender
  | arr h =>
    simp only [pretty]
    split
    · exact ⟨_,_,rfl,by decide,by decide⟩
    · exact ⟨_,_,rfl,by decide,by decide⟩
  | obj h =>
    simp only [pretty]
    split
    · exact ⟨_,_,rfl,by decide,by decide⟩
    · exact ⟨_,_,rfl,by decide,by decide⟩

/-- The reader inverts the printer, whatever the indentation and whatever follows. -/
theorem readSource_pretty {d : ℕ} {v : Json} (h : Written d v) (n : ℕ) {rest : List Char}
    (hr : Ends rest) : readSource d (pretty n v ++ rest) = some (v,rest) := by
  induction h generalizing n rest with
  | null => exact readSource_render .null hr
  | bool b => exact readSource_render (.bool b) hr
  | int hl hu => exact readSource_render (.int hl hu) hr
  | str s => exact readSource_render (.str s) hr
  | @arr d xs hx ih =>
    cases xs with
    | nil => simp [pretty,readSource,skip,blank]
    | cons x xs =>
      have hitem : ∀ y ∈ x::xs, ∀ rest, Ends rest →
          readSource d ((newline (n+1) ++ pretty (n+1) y) ++ rest) = some (y,rest) := by
        intro y hy rest hrest
        rw [List.append_assoc,skip_skip (newline_blank _)]
        exact ih y hy (n+1) hrest
      obtain ⟨c,cs,hc,hb,hne⟩ := pretty_head (hx x (by simp)) (n+1)
      -- the first break is skipped before the first item is read
      obtain ⟨body,hbody⟩ : ∃ body, body =
          pretty (n+1) x :: xs.map fun y => newline (n+1) ++ pretty (n+1) y := ⟨_,rfl⟩
      have htext : join ((x::xs).map fun y => newline (n+1) ++ pretty (n+1) y) ++
          (newline n ++ ']' :: rest) = newline (n+1) ++ (join body ++ (newline n ++ ']' :: rest)) := by
        simp [hbody,join]
      have hlength : (x::xs).length ≤ (join body ++ (newline n ++ ']' :: rest)).length := by
        have hj := @Canonical.join_length body (by simp [hbody,hc,newline])
        simp only [hbody,List.length_map,List.length_append,List.length_cons] at hj ⊢
        omega
      have hitems := Canonical.readItems_join hitem (by simp) (newline_blank n) hlength rest
      rw [htext,readItems_skip (newline_blank _)] at hitems
      obtain ⟨ts,hts⟩ : ∃ ts, join body = c::ts := by simp [hbody,join,hc]
      simp only [pretty,reduceCtorEq,if_false,prettyItems_eq,List.cons_append,List.append_assoc,
        List.nil_append]
      unfold readSource
      rw [skip_cons _ (by decide : blank '[' = false),htext]
      simp only []
      rw [hts,List.cons_append] at hitems ⊢
      rw [Canonical.skip_blank (newline_blank _),skip_cons _ hb]
      split
      · rename_i heq
        exact absurd (List.cons.inj heq).1 hne
      · simp only [hitems,Option.bind_eq_bind,Option.bind_some]
  | @obj d fs hx ih =>
    cases fs with
    | nil => simp [pretty,readSource,skip,blank]
    | cons f fs =>
      have hfield : ∀ g ∈ f::fs, ∀ rest, Ends rest →
          readSource d ((' ' :: pretty (n+1) g.2) ++ rest) = some (g.2,rest) := by
        intro g hg rest hrest
        exact (skip_skip (l := [' ']) (by simp [blank]) d _).trans (ih g hg (n+1) hrest)
      obtain ⟨body,hbody⟩ : ∃ body, body = (renderString f.1 ++ ':' :: (' ' :: pretty (n+1) f.2)) ::
          fs.map fun g => newline (n+1) ++ renderString g.1 ++ ':' :: (' ' :: pretty (n+1) g.2) :=
        ⟨_,rfl⟩
      have htext : join ((f::fs).map fun g =>
          newline (n+1) ++ renderString g.1 ++ ':' :: (' ' :: pretty (n+1) g.2)) ++
          (newline n ++ '}' :: rest) = newline (n+1) ++ (join body ++ (newline n ++ '}' :: rest)) := by
        simp [hbody,join]
      have hlength : (f::fs).length ≤ (join body ++ (newline n ++ '}' :: rest)).length := by
        have hne : ∀ t ∈ body, t ≠ [] := by
          intro t ht
          rw [hbody] at ht
          rcases List.mem_cons.mp ht with rfl | ht
          · simp
          · obtain ⟨g,-,rfl⟩ := List.mem_map.mp ht
            simp
        have hj := Canonical.join_length hne
        simp only [hbody,List.length_map,List.length_append,List.length_cons] at hj ⊢
        omega
      have hfields := Canonical.readFields_join (p := readSource d) (q := renderString)
        (r := fun x => ' ' :: pretty (n+1) x) renderString_read hfield
        (by simp) (newline_blank (n+1)) (newline_blank n) hlength rest
      rw [htext,readFields_skip (newline_blank _)] at hfields
      obtain ⟨ts,hts⟩ : ∃ ts, join body = '"' :: ts := by simp [hbody,join,renderString]
      simp only [pretty,reduceCtorEq,if_false,prettyFields_eq,List.cons_append,List.append_assoc,
        List.nil_append]
      unfold readSource
      rw [skip_cons _ (by decide : blank '{' = false)]
      simp only [List.append_assoc,List.cons_append] at htext
      rw [htext]
      simp only []
      rw [hts,List.cons_append] at hfields ⊢
      rw [Canonical.skip_blank (newline_blank _),skip_cons _ (by decide : blank '"' = false)]
      split
      · rename_i heq
        cases heq
      · simp only [hfields,Option.bind_eq_bind,Option.bind_some]

/-- `to_vec_pretty` with a final line break is read back as it was written. -/
theorem source_pretty {v : Json} (h : Written 127 v) : source (pretty 0 v ++ ['\n']) = some v := by
  have hends : Ends ['\n'] := by
    intro c hc
    obtain rfl : '\n' = c := by simpa using hc
    decide
  rw [source,readSource_pretty h 0 hends]
  rfl

end Json
end CanixToolbelt
