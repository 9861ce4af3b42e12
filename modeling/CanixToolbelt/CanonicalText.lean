import CanixToolbelt.Canonical

/-! The canonical text of a value without fractions is printable ASCII, is read back as the
value with its keys in order, and is shared exactly by the values that are equal as JSON. -/
namespace CanixToolbelt
namespace Canonical

open Json

/-- A value without fractions, nested at most `d` containers deep. -/
inductive FloatFree : ℕ → Json → Prop
  | null {d : ℕ} : FloatFree d .null
  | bool {d : ℕ} (b : Bool) : FloatFree d (.bool b)
  | int {d : ℕ} {n : ℤ} (hl : -2^63 ≤ n) (hu : n < 2^64) : FloatFree d (.int n)
  | str {d : ℕ} (s : String) : FloatFree d (.str s)
  | arr {d : ℕ} {xs : List Json} (h : ∀ x ∈ xs, FloatFree d x) : FloatFree (d+1) (.arr xs)
  | obj {d : ℕ} {fs : List (String × Json)} (h : ∀ f ∈ fs, FloatFree d f.2) :
    FloatFree (d+1) (.obj fs)

/-- Equal as JSON: arrays item by item, objects under every key, in whatever order the keys
stand. -/
inductive Same : Json → Json → Prop
  | null : Same .null .null
  | bool (b : Bool) : Same (.bool b) (.bool b)
  | int (n : ℤ) : Same (.int n) (.int n)
  | str (s : String) : Same (.str s) (.str s)
  | arr {xs ys : List Json} (hlength : xs.length = ys.length)
      (h : ∀ p ∈ xs.zip ys, Same p.1 p.2) : Same (.arr xs) (.arr ys)
  | obj {fs gs : List (String × Json)} (hkeys : ∀ k, (fs.lookup k).isSome = (gs.lookup k).isSome)
      (h : ∀ k x y, fs.lookup k = some x → gs.lookup k = some y → Same x y) :
    Same (.obj fs) (.obj gs)

mutual
/-- The value with the keys of all its objects in order. -/
def normal : Json → Json
  | .obj fields => .obj (sortKeys (normalFields fields))
  | .arr items => .arr (normalItems items)
  | v => v
def normalItems : List Json → List Json
  | [] => []
  | x::xs => normal x :: normalItems xs
def normalFields : List (String × Json) → List (String × Json)
  | [] => []
  | (k,x)::fs => (k,normal x) :: normalFields fs
end

theorem FloatFree.mono {d e : ℕ} {v : Json} (h : FloatFree d v) (hde : d ≤ e) : FloatFree e v := by
  induction h generalizing e with
  | null => exact .null
  | bool b => exact .bool b
  | int hl hu => exact .int hl hu
  | str s => exact .str s
  | arr _ ih =>
    obtain ⟨e,rfl⟩ : ∃ n, e = n + 1 := ⟨e-1,by omega⟩
    exact .arr fun x hx => ih x hx (by omega)
  | obj _ ih =>
    obtain ⟨e,rfl⟩ : ∃ n, e = n + 1 := ⟨e-1,by omega⟩
    exact .obj fun f hf => ih f hf (by omega)

/-! ## Keys in order -/

theorem normalItems_eq (xs : List Json) : normalItems xs = xs.map normal := by
  induction xs with
  | nil => rfl
  | cons x xs ih => simp [normalItems,ih]

theorem normalFields_eq (fs : List (String × Json)) :
    normalFields fs = fs.map fun f => (f.1,normal f.2) := by
  induction fs with
  | nil => rfl
  | cons f fs ih => simp [normalFields,ih]

theorem lookup_map {α β : Type} (g : α → β) (fs : List (String × α)) (k : String) :
    (fs.map fun f => (f.1,g f.2)).lookup k = (fs.lookup k).map g := by
  induction fs with
  | nil => rfl
  | cons f fs ih =>
    obtain ⟨l,x⟩ := f
    simp only [List.map_cons,List.lookup_cons,ih]
    cases k == l <;> rfl

theorem lookup_normal (fs : List (String × Json)) (k : String) :
    (sortKeys (normalFields fs)).lookup k = (fs.lookup k).map normal := by
  rw [lookup_sortKeys,normalFields_eq,lookup_map]

theorem plain_normal {d : ℕ} {v : Json} (h : FloatFree d v) : Plain d (normal v) := by
  induction h with
  | null => exact .null
  | bool b => exact .bool b
  | int hl hu => exact .int hl hu
  | str s => exact .str s
  | arr _ ih =>
    simp only [normal,normalItems_eq]
    refine .arr fun y hy => ?_
    obtain ⟨x,hx,rfl⟩ := List.mem_map.mp hy
    exact ih x hx
  | obj _ ih =>
    simp only [normal,normalFields_eq]
    refine .obj (List.pairwise_map.mp (sortKeys_sorted _)) fun g hg => ?_
    obtain ⟨f,hf,rfl⟩ := List.mem_map.mp (mem_sortKeys hg)
    exact ih f hf

/-- Values whose keys stand in order are left as they are. -/
theorem normal_plain {d : ℕ} {v : Json} (h : Plain d v) : normal v = v := by
  induction h with
  | arr _ ih =>
    simp only [normal,normalItems_eq]
    exact congrArg Json.arr ((List.map_congr_left ih).trans (List.map_id' _))
  | @obj d fs hs _ ih =>
    have hfs : normalFields fs = fs := by
      rw [normalFields_eq]
      exact (List.map_congr_left fun f hf => by rw [ih f hf]).trans (List.map_id' fs)
    simp only [normal,hfs]
    refine congrArg Json.obj (sorted_ext (sortKeys_sorted fs) (List.pairwise_map.mpr hs) ?_)
    exact lookup_sortKeys fs
  | _ => rfl

theorem normal_congr {v w : Json} (h : Same v w) : normal v = normal w := by
  induction h with
  | @arr xs ys hlength _ ih =>
    simp only [normal,normalItems_eq]
    refine congrArg Json.arr (List.ext_getElem (by simpa using hlength) fun i hi hi' => ?_)
    simp only [List.length_map] at hi hi'
    simp only [List.getElem_map]
    exact ih (xs[i],ys[i]) (List.mem_iff_getElem.mpr ⟨i,by simp [hi,hi'],by simp⟩)
  | @obj fs gs hkeys _ ih =>
    simp only [normal]
    refine congrArg Json.obj (sorted_ext (sortKeys_sorted _) (sortKeys_sorted _) fun k => ?_)
    rw [lookup_normal,lookup_normal]
    have hk := hkeys k
    cases hf : fs.lookup k with
    | none =>
      cases hg : gs.lookup k with
      | none => rfl
      | some y => simp [hf,hg] at hk
    | some x =>
      cases hg : gs.lookup k with
      | none => simp [hf,hg] at hk
      | some y => simp [ih k x y hf hg]
  | _ => rfl

/-- Values that agree once their keys are in order are equal as JSON. -/
theorem same_of_normal {d : ℕ} {v w : Json} (hv : FloatFree d v) (h : normal v = normal w) :
    Same v w := by
  induction hv generalizing w with
  | null =>
    cases w <;> simp only [normal,reduceCtorEq] at h
    exact .null
  | bool b =>
    cases w <;> simp only [normal,reduceCtorEq,Json.bool.injEq] at h
    subst h
    exact .bool b
  | @int _ n _ _ =>
    cases w <;> simp only [normal,reduceCtorEq,Json.int.injEq] at h
    subst h
    exact .int n
  | str s =>
    cases w <;> simp only [normal,reduceCtorEq,Json.str.injEq] at h
    subst h
    exact .str s
  | @arr _ xs _ ih =>
    cases w <;> simp only [normal,reduceCtorEq,Json.arr.injEq,normalItems_eq] at h
    rename_i ys
    have hlength : xs.length = ys.length := by simpa using congrArg List.length h
    refine .arr hlength fun p hp => ?_
    obtain ⟨i,hi,rfl⟩ := List.mem_iff_getElem.mp hp
    simp only [List.length_zip] at hi
    simp only [List.getElem_zip]
    refine ih _ (List.getElem_mem (by omega)) ?_
    have hx : i < (xs.map normal).length := by simp; omega
    have hread := List.getElem_of_eq h hx
    simpa using hread
  | @obj _ fs _ ih =>
    cases w <;> simp only [normal,reduceCtorEq,Json.obj.injEq] at h
    rename_i gs
    have hread : ∀ k, (fs.lookup k).map normal = (gs.lookup k).map normal := by
      intro k
      rw [← lookup_normal,← lookup_normal,h]
    refine .obj (fun k => by simpa using congrArg Option.isSome (hread k)) fun k x y hx hy => ?_
    have hxy := hread k
    rw [hx,hy] at hxy
    exact ih _ (mem_of_lookup hx) (Option.some.inj hxy)

variable (lib : Library)

theorem canonical_normal {d : ℕ} {v : Json} (h : FloatFree d v) :
    canonical lib (normal v) = canonical lib v := by
  induction h with
  | @arr _ xs _ ih =>
    have htexts : (xs.map normal).map (canonical lib) = xs.map (canonical lib) := by
      rw [List.map_map]
      exact List.map_congr_left ih
    simp only [normal,normalItems_eq,canonical,canonicalItems_eq,htexts]
  | @obj _ fs _ ih =>
    have hsorted : sortKeys (canonicalFields lib (sortKeys (normalFields fs))) =
        sortKeys (canonicalFields lib fs) := by
      refine sorted_ext (sortKeys_sorted _) (sortKeys_sorted _) fun k => ?_
      rw [lookup_sortKeys,lookup_sortKeys,canonicalFields_eq,canonicalFields_eq,lookup_texts,
        lookup_texts,lookup_normal,Option.map_map]
      cases hk : fs.lookup k with
      | none => rfl
      | some x => exact congrArg some (ih _ (mem_of_lookup hk))
    simp only [normal,canonical,hsorted]
  | _ => rfl

/-! ## Reading the text back -/

theorem string_read (s : String) (rest : List Char) :
    ∃ cs, string s ++ rest = '"' :: cs ∧ readString cs.length cs = some (s.toList,rest) := by
  refine ⟨s.toList.flatMap (fun c => (escapeChar c).flatMap ascii) ++ '"' :: rest,
    by simp [string_eq],?_⟩
  refine readString_mono ?_ (readString_string s.toList rest)
  have hpiece : ∀ c, 1 ≤ ((escapeChar c).flatMap ascii).length := by
    intro c
    have hne : (escapeChar c).flatMap ascii ≠ [] := by
      by_cases hc : c.toNat ≤ 0x7e
      · rw [escapeChar_ascii hc]
        unfold escapeChar
        split_ifs <;> simp
      · rw [escapeChar_wide (by omega),List.flatMap_cons,List.flatMap_nil,List.append_nil]
        unfold ascii encodeUtf16
        split_ifs <;> simp
    exact List.length_pos_iff.mpr hne
  have hlength : s.toList.length ≤
      (s.toList.flatMap fun c => (escapeChar c).flatMap ascii).length := by
    rw [List.length_flatMap]
    refine List.length_le_sum_of_one_le _ ?_ |>.trans' (by simp)
    intro n hn
    obtain ⟨c,_,rfl⟩ := List.mem_map.mp hn
    exact hpiece c
  simp only [List.length_append,List.length_cons]
  omega

variable {lib} {d : ℕ}

/-- Texts start with a character that is no blank and closes nothing. -/
theorem canonical_head {v : Json} (h : Plain d v) :
    ∃ c cs, canonical lib v = c::cs ∧ blank c = false ∧ c ≠ ']' ∧ c ≠ '}' := by
  have hrender := render_head h
  cases h with
  | null => exact hrender
  | bool b => exact hrender
  | int hl hu => exact hrender
  | str s =>
    simp only [canonical,string_eq]
    exact ⟨_,_,rfl,by decide,by decide,by decide⟩
  | arr h =>
    simp only [canonical]
    exact ⟨_,_,rfl,by decide,by decide,by decide⟩
  | obj hs h =>
    simp only [canonical]
    exact ⟨_,_,rfl,by decide,by decide,by decide⟩

section Containers
variable {p : List Char → Option (Json × List Char)}

theorem join_cons (t u : List Char) (ts : List (List Char)) :
    join (t::u::ts) = t ++ ',' :: join (u::ts) := by simp [join]

theorem join_length {ts : List (List Char)} (h : ∀ t ∈ ts, t ≠ []) : ts.length ≤ (join ts).length := by
  induction ts with
  | nil => simp
  | cons t ts ih =>
    have ht := List.length_pos_iff.mpr (h t (by simp))
    have hts := ih fun u hu => h u (by simp [hu])
    cases ts with
    | nil =>
      simp only [join,List.flatMap_nil,List.append_nil,List.length_cons,List.length_nil]
      omega
    | cons u us =>
      rw [join_cons,List.length_append,List.length_cons]
      simp only [List.length_cons] at hts ⊢
      omega

theorem ends_blank {trail : List Char} (ht : ∀ c ∈ trail, blank c = true) {c : Char} (cs : List Char)
    (hc : c = ',' ∨ c = ']' ∨ c = '}') : Ends (trail ++ c::cs) := by
  cases trail with
  | nil => exact ends_cons cs hc
  | cons b bs =>
    intro c' hc'
    obtain rfl : b = c' := by simpa using hc'
    have hb := ht b (by simp)
    simp only [blank,Bool.or_eq_true,decide_eq_true_eq] at hb
    rcases hb with ((rfl | rfl) | rfl) | rfl <;> decide

theorem skip_blank {lead : List Char} (hl : ∀ c ∈ lead, blank c = true) (cs : List Char) :
    skip (lead ++ cs) = skip cs := List.dropWhile_append_of_pos hl

/-- Items joined by commas are read back, blanks may stand before the bracket. -/
theorem readItems_join {r : Json → List Char} {xs : List Json} {trail : List Char}
    (hp : ∀ x ∈ xs, ∀ rest, Ends rest → p (r x ++ rest) = some (x,rest)) (hx : xs ≠ [])
    (ht : ∀ c ∈ trail, blank c = true) {n : ℕ} (hn : xs.length ≤ n) (rest : List Char) :
    readItems p n (join (xs.map r) ++ (trail ++ ']' :: rest)) = some (xs,rest) := by
  induction xs generalizing n with
  | nil => exact absurd rfl hx
  | cons x xs ih =>
    obtain ⟨n,rfl⟩ := Nat.exists_eq_succ_of_ne_zero (by simp at hn; omega : n ≠ 0)
    cases xs with
    | nil =>
      have h := hp x (by simp) (trail ++ ']' :: rest) (ends_blank ht _ (by simp))
      simp [readItems,join,h,skip_blank ht,skip_cons rest (by decide : blank ']' = false)]
    | cons y ys =>
      have h := hp x (by simp) (',' :: (join ((y::ys).map r) ++ (trail ++ ']' :: rest)))
        (ends_cons _ (by simp))
      have hi := ih (fun z hz => hp z (by simp [hz])) (by simp) (n := n) (by simpa using hn)
      rw [List.map_cons,List.map_cons,join_cons,← List.map_cons,List.append_assoc,List.cons_append]
      simp only [readItems,h,Option.bind_eq_bind,Option.bind_some]
      rw [skip_cons _ (by decide : blank ',' = false)]
      simp only [hi,Option.bind_some]

/-- Spellings of strings that the reader inverts. -/
def Quotes (q : String → List Char) : Prop := ∀ (s : String) (rest : List Char),
  ∃ cs, q s ++ rest = '"' :: cs ∧ readString cs.length cs = some (s.toList,rest)

/-- Fields joined by commas are read back, blanks may stand before keys and the brace. -/
theorem readFields_join {q : String → List Char} {r : Json → List Char} {fs : List (String × Json)}
    {lead trail : List Char} (hq : Quotes q)
    (hp : ∀ f ∈ fs, ∀ rest, Ends rest → p (r f.2 ++ rest) = some (f.2,rest)) (hx : fs ≠ [])
    (hl : ∀ c ∈ lead, blank c = true) (ht : ∀ c ∈ trail, blank c = true) {n : ℕ}
    (hn : fs.length ≤ n) (rest : List Char) :
    readFields p n (join (fs.map fun f => lead ++ q f.1 ++ ':' :: r f.2) ++ (trail ++ '}' :: rest)) =
      some (fs,rest) := by
  induction fs generalizing n with
  | nil => exact absurd rfl hx
  | cons f fs ih =>
    obtain ⟨k,x⟩ := f
    obtain ⟨n,rfl⟩ := Nat.exists_eq_succ_of_ne_zero (by simp at hn; omega : n ≠ 0)
    cases fs with
    | nil =>
      obtain ⟨cs,hs,hk⟩ := hq k (':' :: (r x ++ (trail ++ '}' :: rest)))
      have h := hp (k,x) (by simp) (trail ++ '}' :: rest) (ends_blank ht _ (by simp))
      have htext : join ([(k,x)].map fun f => lead ++ q f.1 ++ ':' :: r f.2) ++ (trail ++ '}' :: rest) =
          lead ++ '"' :: cs := by
        rw [← hs]
        simp [join]
      simp only [readFields,htext,hk,h,skip_blank hl,skip_blank ht,
        skip_cons _ (by decide : blank '"' = false),skip_cons _ (by decide : blank ':' = false),
        skip_cons _ (by decide : blank '}' = false),Option.bind_eq_bind,Option.bind_some,
        String.ofList_toList]
    | cons g gs =>
      obtain ⟨cs,hs,hk⟩ := hq k (':' :: (r x ++ ',' ::
        (join ((g::gs).map fun f => lead ++ q f.1 ++ ':' :: r f.2) ++ (trail ++ '}' :: rest))))
      have h := hp (k,x) (by simp) (',' ::
        (join ((g::gs).map fun f => lead ++ q f.1 ++ ':' :: r f.2) ++ (trail ++ '}' :: rest)))
        (ends_cons _ (by simp))
      have hi := ih (fun z hz => hp z (by simp [hz])) (by simp) (n := n) (by simpa using hn)
      have htext : join (((k,x)::g::gs).map fun f => lead ++ q f.1 ++ ':' :: r f.2) ++
          (trail ++ '}' :: rest) = lead ++ '"' :: cs := by
        rw [← hs]
        simp only [List.map_cons,join_cons,List.append_assoc,List.cons_append]
      simp only [readFields,htext,hk,h,skip_blank hl,skip_cons _ (by decide : blank '"' = false),hi,
        skip_cons _ (by decide : blank ':' = false),skip_cons _ (by decide : blank ',' = false),
        Option.bind_eq_bind,Option.bind_some,String.ofList_toList]

end Containers

/-- The reader inverts the canonical text, whatever follows the value. -/
theorem readValue_canonical {v : Json} (h : Plain d v) {rest : List Char} (hr : Ends rest) :
    readValue d (canonical lib v ++ rest) = some (v,rest) := by
  induction h generalizing rest with
  | null => exact readValue_render .null hr
  | bool b => exact readValue_render (.bool b) hr
  | int hl hu => exact readValue_render (.int hl hu) hr
  | @str d s =>
    obtain ⟨cs,hs,hk⟩ := string_read s rest
    unfold readValue
    simp only [canonical]
    rw [hs,skip_cons _ (by decide : blank '"' = false)]
    simp [hk]
  | @arr d xs hx ih =>
    simp only [canonical,canonicalItems_eq,List.cons_append,List.append_assoc,List.nil_append]
    cases xs with
    | nil => simp [readValue,join,skip,blank]
    | cons x xs =>
      obtain ⟨c,cs,hc,hb,hne,_⟩ := @canonical_head lib _ _ (hx x (by simp))
      have hlength : (x::xs).length ≤
          (join ((x::xs).map (canonical lib)) ++ ']' :: rest).length := by
        have htexts : ∀ t ∈ (x::xs).map (canonical lib), t ≠ [] := by
          intro t ht
          obtain ⟨y,hy,rfl⟩ := List.mem_map.mp ht
          obtain ⟨a,as,ha,-⟩ := @canonical_head lib _ _ (hx y hy)
          simp [ha]
        have hj := join_length htexts
        simp only [List.length_map,List.length_append] at hj ⊢
        omega
      have hi := @readItems_join (readValue d) _ _ [] (fun y hy rest hr => ih y hy hr)
        (by simp) (by simp) _ hlength rest
      rw [List.nil_append] at hi
      obtain ⟨ts,ht⟩ : ∃ ts, join ((x::xs).map (canonical lib)) = c::ts := by simp [join,hc]
      unfold readValue
      rw [skip_cons _ (by decide : blank '[' = false)]
      simp only []
      rw [ht,List.cons_append] at hi ⊢
      rw [skip_cons _ hb]
      split
      · rename_i h
        cases h
        exact absurd rfl hne
      · simp only [hi,Option.bind_eq_bind,Option.bind_some]
  | @obj d fs hs hx ih =>
    have hsorted : sortKeys (fs.map fun f => (f.1,canonical lib f.2)) =
        fs.map fun f => (f.1,canonical lib f.2) := by
      refine sorted_ext (sortKeys_sorted _) ?_ (lookup_sortKeys _)
      rw [List.map_map]
      exact List.pairwise_map.mpr hs
    simp only [canonical,canonicalFields_eq,hsorted,List.map_map,List.cons_append,List.append_assoc,
      List.nil_append]
    cases fs with
    | nil => simp [readValue,join,skip,blank]
    | cons f fs =>
      have hlength : (f::fs).length ≤
          (join ((f::fs).map fun f => entry (f.1,canonical lib f.2)) ++ '}' :: rest).length := by
        have htexts : ∀ t ∈ (f::fs).map (fun f => entry (f.1,canonical lib f.2)), t ≠ [] := by
          intro t ht
          obtain ⟨g,-,rfl⟩ := List.mem_map.mp ht
          simp [entry,string_eq]
        have hj := join_length htexts
        simp only [List.length_map,List.length_append] at hj ⊢
        omega
      have hi := @readFields_join (readValue d) _ _ _ [] [] string_read
        (fun y hy rest hr => ih y hy hr) (by simp) (by simp) (by simp) _ hlength rest
      simp only [List.nil_append] at hi
      change readFields _ _ (join ((f::fs).map fun f => entry (f.1,canonical lib f.2)) ++ _) = _ at hi
      obtain ⟨ts,ht⟩ : ∃ ts, join ((f::fs).map fun f => entry (f.1,canonical lib f.2)) = '"' :: ts := by
        simp [join,entry,string_eq]
      unfold readValue
      rw [skip_cons _ (by decide : blank '{' = false)]
      simp only [Function.comp_def]
      rw [ht,List.cons_append] at hi ⊢
      rw [skip_cons _ (by decide : blank '"' = false)]
      split
      · rename_i h
        cases h
      · simp only [hi,Option.bind_eq_bind,Option.bind_some,object_sorted hs]

theorem readValue_normal {v : Json} (h : FloatFree d v) :
    readValue d (canonical lib v) = some (normal v,[]) := by
  have hread := @readValue_canonical lib _ _ (plain_normal h) _ ends_nil
  rwa [List.append_nil,canonical_normal lib h] at hread

theorem parse_canonical {v : Json} (h : FloatFree 127 v) :
    parse (canonical lib v) = some (normal v) := by
  rw [parse,readValue_normal h]
  rfl

/-- Two values have one text exactly when they are equal as JSON. -/
theorem canonical_eq_iff {e : ℕ} {v w : Json} (hv : FloatFree d v) (hw : FloatFree e w) :
    canonical lib v = canonical lib w ↔ Same v w := by
  constructor
  · intro h
    have hread := @readValue_normal lib _ _ (hv.mono (Nat.le_max_left d e))
    rw [h,readValue_normal (hw.mono (Nat.le_max_right d e))] at hread
    simp only [Option.some_inj,Prod.mk.injEq,and_true] at hread
    exact same_of_normal hv hread.symm
  · intro h
    rw [← canonical_normal lib hv,← canonical_normal lib hw,normal_congr h]

/-! ## Printable ASCII -/

def Ascii (cs : List Char) : Prop := ∀ c ∈ cs, 32 ≤ c.toNat ∧ c.toNat ≤ 0x7e

theorem ascii_nil : Ascii [] := by simp [Ascii]

theorem ascii_append {cs ds : List Char} (h : Ascii cs) (h' : Ascii ds) : Ascii (cs ++ ds) :=
  fun c hc => (List.mem_append.mp hc).elim (h c) (h' c)

theorem ascii_cons {c : Char} {cs : List Char} (hc : 32 ≤ c.toNat ∧ c.toNat ≤ 0x7e) (h : Ascii cs) :
    Ascii (c::cs) := by
  intro x hx
  rcases List.mem_cons.mp hx with rfl | hx
  · exact hc
  · exact h x hx

theorem ascii_flatMap {α : Type} {g : α → List Char} {xs : List α} (h : ∀ x ∈ xs, Ascii (g x)) :
    Ascii (xs.flatMap g) := by
  intro c hc
  obtain ⟨x,hx,hc⟩ := List.mem_flatMap.mp hc
  exact h x hx c hc

theorem hex4_ascii {u : ℕ} (hu : u < 0x10000) : Ascii (hex4 u) := by
  have hdigit : ∀ d, d < 16 → 32 ≤ (Nat.digitChar d).toNat ∧ (Nat.digitChar d).toNat ≤ 0x7e := by decide
  unfold hex4
  exact ascii_cons (hdigit _ (by omega)) (ascii_cons (hdigit _ (by omega))
    (ascii_cons (hdigit _ (by omega)) (ascii_cons (hdigit _ (by omega)) ascii_nil)))

theorem encodeUtf16_lt (c : Char) : ∀ u ∈ encodeUtf16 c, u < 0x10000 := by
  have hbound : c.toNat < 0x110000 := by
    rcases c.valid with h | h
    · exact Nat.lt_trans h (by omega)
    · exact h.2
  unfold encodeUtf16
  split_ifs with hsmall
  · simpa using hsmall
  · simp only [List.mem_cons,List.not_mem_nil,or_false,forall_eq_or_imp,forall_eq]
    omega

theorem ascii_ascii {c : Char} (h : 32 ≤ c.toNat) : Ascii (ascii c) := by
  unfold ascii
  split_ifs with hsmall
  · exact ascii_cons ⟨h,hsmall⟩ ascii_nil
  · refine ascii_flatMap fun u hu => ?_
    exact ascii_cons (by decide) (ascii_cons (by decide) (hex4_ascii (encodeUtf16_lt c u hu)))

theorem string_ascii (s : String) : Ascii (string s) :=
  ascii_flatMap fun c hc => ascii_ascii (renderString_printable s c hc)

theorem decimal_ascii (n : ℕ) : Ascii (decimal n) := fun c hc => by
  have := digit_bounds (decimal_isDigit n c hc)
  omega

theorem join_ascii {ts : List (List Char)} (h : ∀ t ∈ ts, Ascii t) : Ascii (join ts) := by
  cases ts with
  | nil => exact ascii_nil
  | cons t ts =>
    refine ascii_append (h t (by simp)) (ascii_flatMap fun u hu => ?_)
    exact ascii_cons (by decide) (h u (by simp [hu]))

theorem canonical_ascii {v : Json} (h : FloatFree d v) : Ascii (canonical lib v) := by
  have hword : ∀ cs : List Char, (cs.all fun c => 32 ≤ c.toNat && c.toNat ≤ 0x7e) = true →
      Ascii cs := by
    intro cs hcs c hc
    simpa using List.all_eq_true.mp hcs c hc
  induction h with
  | null => exact hword _ rfl
  | bool b => cases b <;> exact hword _ rfl
  | @int _ n _ _ =>
    cases n with
    | ofNat n => exact decimal_ascii n
    | negSucc n => exact ascii_cons (by decide) (decimal_ascii _)
  | str s =>
    simp only [canonical]
    exact string_ascii s
  | arr _ ih =>
    simp only [canonical,canonicalItems_eq]
    refine ascii_append (ascii_cons (by decide) (join_ascii fun t ht => ?_))
      (ascii_cons (by decide) ascii_nil)
    obtain ⟨x,hx,rfl⟩ := List.mem_map.mp ht
    exact ih x hx
  | obj _ ih =>
    rw [canonical_obj]
    refine ascii_append (ascii_cons (by decide) (join_ascii fun t ht => ?_))
      (ascii_cons (by decide) ascii_nil)
    obtain ⟨f,hf,rfl⟩ := mem_entries ht
    exact ascii_append (string_ascii f.1) (ascii_cons (by decide) (ih f hf))

/-! ## Deeper than the reader descends -/

/-- An empty array inside `n` others. -/
def nested : ℕ → Json
  | 0 => .arr []
  | n+1 => .arr [nested n]

theorem nested_free (n : ℕ) : FloatFree (n+1) (nested n) := by
  induction n with
  | zero => exact .arr (by simp)
  | succ n ih => exact .arr (by simpa using ih)

theorem readValue_nested (n : ℕ) (rest : List Char) :
    readValue n (canonical lib (nested n) ++ rest) = none := by
  induction n generalizing rest with
  | zero => simp [nested,canonical,canonicalItems,readValue,skip,blank]
  | succ n ih =>
    obtain ⟨cs,hcs⟩ : ∃ cs, canonical lib (nested n) = '[' :: cs := by
      cases n <;> simp [nested,canonical]
    have hitems := ih (']' :: rest)
    simp only [nested,canonical,canonicalItems,join,List.flatMap_nil,List.append_nil,
      List.cons_append,List.append_assoc,List.nil_append]
    unfold readValue
    rw [skip_cons _ (by decide : blank '[' = false)]
    simp only []
    rw [hcs,List.cons_append] at hitems ⊢
    rw [skip_cons _ (by decide : blank '[' = false)]
    simp [readItems,hitems]

theorem parse_nested : parse (canonical lib (nested 127)) = none := by
  have hread := @readValue_nested lib 127 []
  rw [List.append_nil] at hread
  rw [parse,hread]
  rfl

end Canonical
end CanixToolbelt
