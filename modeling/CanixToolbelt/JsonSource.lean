import CanixToolbelt.JsonText

/-! JSON text read field by field, as derived readers read it: fields stay as they were
written, and a value is read the same whatever follows it. -/
namespace CanixToolbelt
namespace Json

/-- A value nested at most `d` containers deep, with the fields of objects as they stand. -/
def readSource : ℕ → List Char → Option (Json × List Char)
  | d, cs =>
    match skip cs with
    | 'n' :: 'u' :: 'l' :: 'l' :: cs => some (.null,cs)
    | 't' :: 'r' :: 'u' :: 'e' :: cs => some (.bool true,cs)
    | 'f' :: 'a' :: 'l' :: 's' :: 'e' :: cs => some (.bool false,cs)
    | '"' :: cs => do
      let (s,cs) ← readString cs.length cs
      some (.str (String.ofList s),cs)
    | '-' :: cs => readNumber true cs
    | '[' :: cs =>
      match d with
      | 0 => none
      | d+1 =>
        match skip cs with
        | ']' :: cs => some (.arr [],cs)
        | cs => do
          let (xs,cs) ← readItems (readSource d) cs.length cs
          some (.arr xs,cs)
    | '{' :: cs =>
      match d with
      | 0 => none
      | d+1 =>
        match skip cs with
        | '}' :: cs => some (.obj [],cs)
        | cs => do
          let (fs,cs) ← readFields (readSource d) cs.length cs
          some (.obj fs,cs)
    | cs => readNumber false cs

/-- One value and nothing after it. -/
def source (cs : List Char) : Option Json := do
  let (v,cs) ← readSource 127 cs
  if skip cs = [] then some v else none

/-! ## Reading back what was printed -/

/-- Values without fractions, nested at most `d` deep. -/
inductive Written : ℕ → Json → Prop
  | null {d : ℕ} : Written d .null
  | bool {d : ℕ} (b : Bool) : Written d (.bool b)
  | int {d : ℕ} {n : ℤ} (hl : -2^63 ≤ n) (hu : n < 2^64) : Written d (.int n)
  | str {d : ℕ} (s : String) : Written d (.str s)
  | arr {d : ℕ} {xs : List Json} (h : ∀ x ∈ xs, Written d x) : Written (d+1) (.arr xs)
  | obj {d : ℕ} {fs : List (String × Json)} (h : ∀ f ∈ fs, Written d f.2) : Written (d+1) (.obj fs)

theorem Written.mono {d e : ℕ} {v : Json} (h : Written d v) (hde : d ≤ e) : Written e v := by
  induction h generalizing e with
  | null => exact .null
  | bool b => exact .bool b
  | int hl hu => exact .int hl hu
  | str s => exact .str s
  | arr _ ih =>
    obtain ⟨e,rfl⟩ := Nat.exists_eq_succ_of_ne_zero (by omega : e ≠ 0)
    exact .arr fun x hx => ih x hx (by omega)
  | obj _ ih =>
    obtain ⟨e,rfl⟩ := Nat.exists_eq_succ_of_ne_zero (by omega : e ≠ 0)
    exact .obj fun f hf => ih f hf (by omega)

theorem digit_blank {c : Char} (hc : c.isDigit = true) : blank c = false := by
  have hb := digit_bounds hc
  simp only [blank,Bool.or_eq_false_iff,decide_eq_false_iff_not]
  refine ⟨⟨⟨?_,?_⟩,?_⟩,?_⟩ <;> rintro rfl <;> exact absurd hb (by decide)

theorem readSource_digit (d : ℕ) {c : Char} (cs : List Char) (hc : c.isDigit = true) :
    readSource d (c::cs) = readNumber false (c::cs) := by
  have hb := digit_bounds hc
  unfold readSource
  rw [skip_cons cs (digit_blank hc)]
  split <;> first | rfl | (rename_i h; cases h; exact absurd hb (by decide))

/-- Printed values start with a character that is no blank and closes nothing. -/
theorem written_head {d : ℕ} {v : Json} (h : Written d v) :
    ∃ c cs, render v = c::cs ∧ blank c = false ∧ c ≠ ']' := by
  cases h with
  | null => exact ⟨_,_,rfl,by decide,by decide⟩
  | bool b => cases b <;> exact ⟨_,_,rfl,by decide,by decide⟩
  | @int _ n _ _ =>
    cases n with
    | ofNat n =>
      obtain ⟨c,cs,hc,hd⟩ := decimal_cons n
      refine ⟨c,cs,hc,digit_blank hd,?_⟩
      rintro rfl
      cases hd
    | negSucc n => exact ⟨_,_,rfl,by decide,by decide⟩
  | str s => exact ⟨_,_,rfl,by decide,by decide⟩
  | arr h => exact ⟨_,_,rfl,by decide,by decide⟩
  | obj h => exact ⟨_,_,rfl,by decide,by decide⟩

theorem readSource_render {d : ℕ} {v : Json} (h : Written d v) {rest : List Char} (hr : Ends rest) :
    readSource d (render v ++ rest) = some (v,rest) := by
  induction h generalizing rest with
  | @null d => cases d <;> simp [readSource,render,skip,blank]
  | @bool d b => cases b <;> cases d <;> simp [readSource,render,skip,blank]
  | @int d n hl hu =>
    cases n with
    | ofNat n =>
      obtain ⟨c,cs,hc,hd⟩ := decimal_cons n
      have hv : readNumber false (decimal n ++ rest) = some (.int n,rest) := by
        rw [readNumber_decimal false n hr,integer_false (by simpa using hu)]
      have hm : readSource d (decimal n ++ rest) = readNumber false (decimal n ++ rest) := by
        rw [hc]
        exact readSource_digit d _ hd
      simpa [render] using hm.trans hv
    | negSucc n =>
      have hv : readNumber true (decimal (n+1) ++ rest) = some (.int (.negSucc n),rest) := by
        rw [readNumber_decimal true (n+1) hr,integer_true (by omega) (by omega)]
        rfl
      unfold readSource
      simp only [render,List.cons_append]
      rw [skip_cons _ (by decide : blank '-' = false)]
      exact hv
  | @str d s =>
    obtain ⟨cs,hs,hk⟩ := renderString_read s rest
    unfold readSource
    simp only [render]
    rw [hs,skip_cons _ (by decide : blank '"' = false)]
    simp [hk]
  | @arr d xs hx ih =>
    simp only [render,List.cons_append]
    cases xs with
    | nil => simp [readSource,renderItems,skip,blank]
    | cons x xs =>
      have hi := readItems_render (p := readSource d) (fun y hy rest hr => ih y hy hr) (by simp)
        (n := (renderItems (x::xs) ++ rest).length)
        ((renderItems_length _).trans (by simp)) rest
      obtain ⟨c,cs,hc,hb,hne⟩ := written_head (hx x (by simp))
      have ht : ∃ ts, renderItems (x::xs) = c::ts := by
        cases xs <;> simp [renderItems,hc]
      obtain ⟨ts,ht⟩ := ht
      unfold readSource
      rw [skip_cons _ (by decide : blank '[' = false)]
      simp only []
      rw [ht,List.cons_append] at hi ⊢
      rw [skip_cons _ hb]
      split
      · rename_i h; cases h; exact absurd rfl hne
      · simp only [hi,Option.bind_eq_bind,Option.bind_some]
  | @obj d fs hx ih =>
    simp only [render,List.cons_append]
    cases fs with
    | nil => simp [readSource,renderFields,skip,blank]
    | cons f fs =>
      have hi := readFields_render (p := readSource d) (fun y hy rest hr => ih y hy hr) (by simp)
        (n := (renderFields (f::fs) ++ rest).length)
        ((renderFields_length _).trans (by simp)) rest
      have ht : ∃ ts, renderFields (f::fs) = '"' :: ts := by
        obtain ⟨k,x⟩ := f
        cases fs <;> simp [renderFields,renderString]
      obtain ⟨ts,ht⟩ := ht
      unfold readSource
      rw [skip_cons _ (by decide : blank '{' = false)]
      simp only []
      rw [ht,List.cons_append] at hi ⊢
      rw [skip_cons _ (by decide : blank '"' = false)]
      split
      · rename_i h; cases h
      · simp only [hi,Option.bind_eq_bind,Option.bind_some]

/-- Every printed value without fractions is read back as it was written. -/
theorem source_render {v : Json} (h : Written 127 v) : source (render v) = some v := by
  have hv := readSource_render h ends_nil
  rw [List.append_nil] at hv
  rw [source,hv]
  rfl

/-! ## What follows a value -/

theorem skip_append {cs : List Char} (h : skip cs ≠ []) (suf : List Char) :
    skip (cs ++ suf) = skip cs ++ suf := by
  unfold skip at h ⊢
  rw [List.dropWhile_append]
  split
  · rename_i hempty
    exact absurd (List.isEmpty_iff.mp hempty) h
  · rfl

theorem readHex_append {cs r : List Char} {n : ℕ} (h : readHex cs = some (n,r)) (suf : List Char) :
    readHex (cs ++ suf) = some (n,r ++ suf) := by
  match cs with
  | a::b::c::d::cs =>
    simp only [readHex,List.cons_append,Option.bind_eq_bind,Option.bind_eq_some_iff] at h ⊢
    obtain ⟨a',ha,b',hb,c',hc,d',hd,h⟩ := h
    obtain ⟨hn,rfl⟩ := Prod.mk.inj (Option.some.inj h)
    exact ⟨a',ha,b',hb,c',hc,d',hd,by rw [hn]⟩
  | [] => cases h
  | [_] => cases h
  | [_,_] => cases h
  | [_,_,_] => cases h

theorem readUnicode_append {cs r : List Char} {c : Char} (h : readUnicode cs = some (c,r))
    (suf : List Char) : readUnicode (cs ++ suf) = some (c,r ++ suf) := by
  simp only [readUnicode,Option.bind_eq_bind,Option.bind_eq_some_iff] at h ⊢
  obtain ⟨⟨n,ds⟩,hn,h⟩ := h
  refine ⟨_,readHex_append hn suf,?_⟩
  dsimp only at h ⊢
  split at h
  · rename_i hlead
    rw [if_pos hlead]
    split at h
    · rename_i es
      simp only [List.cons_append]
      obtain ⟨⟨m,fs⟩,hm,h⟩ := Option.bind_eq_some_iff.mp h
      refine Option.bind_eq_some_iff.mpr ⟨_,readHex_append hm suf,?_⟩
      dsimp only at h ⊢
      split at h
      · rename_i htrail
        rw [if_pos htrail]
        obtain ⟨rfl,rfl⟩ := Prod.mk.inj (Option.some.inj h)
        rfl
      · cases h
    · cases h
  · rename_i hlead
    rw [if_neg hlead]
    split at h
    · cases h
    · rename_i htrail
      rw [if_neg htrail]
      obtain ⟨rfl,rfl⟩ := Prod.mk.inj (Option.some.inj h)
      rfl

theorem readEscape_append {cs r : List Char} {c : Char} (h : readEscape cs = some (c,r))
    (suf : List Char) : readEscape (cs ++ suf) = some (c,r ++ suf) := by
  cases cs with
  | nil => cases h
  | cons d cs =>
    simp only [readEscape,List.cons_append] at h ⊢
    split_ifs at h ⊢ with h₁ h₂ h₃ h₄ h₅ h₆ h₇ h₈ h₉
    all_goals first
      | exact readUnicode_append h suf
      | (obtain ⟨rfl,rfl⟩ := Prod.mk.inj (Option.some.inj h); rfl)

theorem readString_append {n m : ℕ} {cs s r : List Char} (h : readString n cs = some (s,r))
    (hnm : n ≤ m) (suf : List Char) : readString m (cs ++ suf) = some (s,r ++ suf) := by
  induction n generalizing m cs s with
  | zero => cases cs <;> cases h
  | succ n ih =>
    obtain ⟨m,rfl⟩ := Nat.exists_eq_succ_of_ne_zero (by omega : m ≠ 0)
    cases cs with
    | nil => cases h
    | cons c cs =>
      simp only [readString,List.cons_append] at h ⊢
      split at h
      · rename_i hc
        rw [if_pos hc]
        obtain ⟨rfl,rfl⟩ := Prod.mk.inj (Option.some.inj h)
        rfl
      · rename_i hc
        rw [if_neg hc]
        split at h
        · rename_i hescape
          rw [if_pos hescape]
          obtain ⟨⟨x,ds⟩,hx,h⟩ := Option.bind_eq_some_iff.mp h
          obtain ⟨⟨t,es⟩,ht,h⟩ := Option.bind_eq_some_iff.mp h
          obtain ⟨rfl,rfl⟩ := Prod.mk.inj (Option.some.inj h)
          refine Option.bind_eq_some_iff.mpr ⟨_,readEscape_append hx suf,?_⟩
          exact Option.bind_eq_some_iff.mpr ⟨_,ih ht (by omega),rfl⟩
        · rename_i hescape
          rw [if_neg hescape]
          split at h
          · cases h
          · rename_i hcontrol
            rw [if_neg hcontrol]
            obtain ⟨⟨t,es⟩,ht,h⟩ := Option.bind_eq_some_iff.mp h
            obtain ⟨rfl,rfl⟩ := Prod.mk.inj (Option.some.inj h)
            exact Option.bind_eq_some_iff.mpr ⟨_,ih ht (by omega),rfl⟩

theorem while_append {q : Char → Bool} {cs : List Char} (h : cs.dropWhile q ≠ []) (suf : List Char) :
    (cs ++ suf).takeWhile q = cs.takeWhile q ∧ (cs ++ suf).dropWhile q = cs.dropWhile q ++ suf := by
  induction cs with
  | nil => exact absurd rfl h
  | cons c cs ih =>
    by_cases hc : q c = true
    · rw [List.dropWhile_cons_of_pos hc] at h
      obtain ⟨ht,hd⟩ := ih h
      simp [hc,ht,hd]
    · simp [hc]

theorem readFraction_append {cs r s : List Char} (h : readFraction cs = some (s,r)) (hr : r ≠ [])
    (suf : List Char) : readFraction (cs ++ suf) = some (s,r ++ suf) := by
  unfold readFraction at h
  split at h
  · rename_i ds
    split at h
    · cases h
    · rename_i hdigits
      obtain ⟨rfl,rfl⟩ := Prod.mk.inj (Option.some.inj h)
      obtain ⟨ht,hd⟩ := while_append hr suf
      simp only [readFraction,List.cons_append,ht,hd]
  · rename_i hdot
    obtain ⟨rfl,rfl⟩ := Prod.mk.inj (Option.some.inj h)
    cases cs with
    | nil => exact absurd rfl hr
    | cons c cs =>
      unfold readFraction
      split
      · rename_i heq
        obtain ⟨rfl,-⟩ := List.cons.inj heq
        exact absurd rfl (hdot cs)
      · rfl

/-- The sign of an exponent is read off what follows the letter. -/
theorem readExponent_sign {c : Char} (hc : c = 'e' ∨ c = 'E') {cs : List Char} (hcs : cs ≠ []) :
    ∃ sign es, ∀ suf, readExponent (c :: (cs ++ suf)) =
      match (es ++ suf).takeWhile Char.isDigit with
      | [] => none
      | ds => some (c::sign ++ ds,(es ++ suf).dropWhile Char.isDigit) := by
  cases cs with
  | nil => exact absurd rfl hcs
  | cons d ds =>
    by_cases hplus : d = '+'
    · subst hplus
      refine ⟨['+'],ds,fun suf => ?_⟩
      simp only [readExponent,if_pos hc]
      rfl
    · by_cases hminus : d = '-'
      · subst hminus
        refine ⟨['-'],ds,fun suf => ?_⟩
        simp only [readExponent,if_pos hc]
        rfl
      · refine ⟨[],d::ds,fun suf => ?_⟩
        simp only [readExponent,hc,List.cons_append,if_true,List.nil_append]
        simp only [hplus,hminus,List.cons.injEq,false_and,imp_self,implies_true]
        cases List.takeWhile Char.isDigit (d :: (ds ++ suf)) <;> rfl

theorem readExponent_append {cs r s : List Char} (h : readExponent cs = some (s,r)) (hr : r ≠ [])
    (suf : List Char) : readExponent (cs ++ suf) = some (s,r ++ suf) := by
  cases cs with
  | nil =>
    obtain ⟨rfl,rfl⟩ := Prod.mk.inj (Option.some.inj h)
    exact absurd rfl hr
  | cons c cs =>
    by_cases he : c = 'e' ∨ c = 'E'
    · have hcs : cs ≠ [] := by
        rintro rfl
        simp [readExponent,he] at h
      obtain ⟨sign,es,hes⟩ := readExponent_sign he hcs
      have hnil := hes []
      rw [List.append_nil,List.append_nil] at hnil
      rw [hnil] at h
      rw [List.cons_append,hes suf]
      split at h
      · cases h
      · rename_i hdigits
        obtain ⟨rfl,rfl⟩ := Prod.mk.inj (Option.some.inj h)
        obtain ⟨ht,hd⟩ := while_append hr suf
        rw [ht,hd]
        split
        · rename_i hnone
          exact absurd hnone hdigits
        · rfl
    · simp only [readExponent,List.cons_append,if_neg he] at h ⊢
      obtain ⟨rfl,rfl⟩ := Prod.mk.inj (Option.some.inj h)
      rfl

theorem readNumber_append {negative : Bool} {cs r : List Char} {v : Json}
    (h : readNumber negative cs = some (v,r)) (hr : r ≠ []) (suf : List Char) :
    readNumber negative (cs ++ suf) = some (v,r ++ suf) := by
  unfold readNumber at h
  dsimp only at h
  split at h
  · cases h
  · rename_i hdigits
    obtain ⟨⟨fraction,ds⟩,hfraction,h⟩ := Option.bind_eq_some_iff.mp h
    obtain ⟨⟨exponent,es⟩,hexponent,h⟩ := Option.bind_eq_some_iff.mp h
    obtain rfl : es = r := by
      dsimp only at h
      split at h <;> exact (Prod.mk.inj (Option.some.inj h)).2
    have hds : ds ≠ [] := by
      rintro rfl
      obtain ⟨-,rfl⟩ := Prod.mk.inj (Option.some.inj hexponent)
      exact hr rfl
    have hrest : cs.dropWhile Char.isDigit ≠ [] := by
      intro hnil
      rw [hnil] at hfraction
      obtain ⟨-,rfl⟩ := Prod.mk.inj (Option.some.inj hfraction)
      exact hds rfl
    obtain ⟨ht,hd⟩ := while_append hrest suf
    unfold readNumber
    dsimp only
    rw [ht,hd,if_neg hdigits]
    refine Option.bind_eq_some_iff.mpr ⟨_,readFraction_append hfraction hds suf,?_⟩
    refine Option.bind_eq_some_iff.mpr ⟨_,readExponent_append hexponent hr suf,?_⟩
    dsimp only at h ⊢
    split at h
    · rename_i hplain
      rw [if_pos hplain]
      obtain ⟨rfl,-⟩ := Prod.mk.inj (Option.some.inj h)
      rfl
    · rename_i hplain
      rw [if_neg hplain]
      obtain ⟨rfl,-⟩ := Prod.mk.inj (Option.some.inj h)
      rfl

section Containers
variable {p : List Char → Option (Json × List Char)}

theorem readItems_append
    (hp : ∀ cs v r, p cs = some (v,r) → r ≠ [] → ∀ suf, p (cs ++ suf) = some (v,r ++ suf))
    {n m : ℕ} {cs r : List Char} {xs : List Json} (h : readItems p n cs = some (xs,r)) (hnm : n ≤ m)
    (suf : List Char) : readItems p m (cs ++ suf) = some (xs,r ++ suf) := by
  induction n generalizing m cs xs with
  | zero => cases h
  | succ n ih =>
    obtain ⟨m,rfl⟩ := Nat.exists_eq_succ_of_ne_zero (by omega : m ≠ 0)
    obtain ⟨⟨x,ds⟩,hx,h⟩ := Option.bind_eq_some_iff.mp h
    dsimp only at h
    split at h
    · rename_i es hcomma
      have hds : ds ≠ [] := by
        rintro rfl
        cases hcomma
      obtain ⟨⟨ys,fs⟩,hys,h⟩ := Option.bind_eq_some_iff.mp h
      obtain ⟨rfl,rfl⟩ := Prod.mk.inj (Option.some.inj h)
      refine Option.bind_eq_some_iff.mpr ⟨_,hp _ _ _ hx hds suf,?_⟩
      dsimp only
      rw [skip_append (by rw [hcomma]; exact List.cons_ne_nil _ _),hcomma]
      exact Option.bind_eq_some_iff.mpr ⟨_,ih hys (by omega),rfl⟩
    · rename_i es hclose
      have hds : ds ≠ [] := by
        rintro rfl
        cases hclose
      obtain ⟨rfl,rfl⟩ := Prod.mk.inj (Option.some.inj h)
      refine Option.bind_eq_some_iff.mpr ⟨_,hp _ _ _ hx hds suf,?_⟩
      dsimp only
      rw [skip_append (by rw [hclose]; exact List.cons_ne_nil _ _),hclose]
      rfl
    · cases h

theorem readFields_append
    (hp : ∀ cs v r, p cs = some (v,r) → r ≠ [] → ∀ suf, p (cs ++ suf) = some (v,r ++ suf))
    {n m : ℕ} {cs r : List Char} {fs : List (String × Json)} (h : readFields p n cs = some (fs,r))
    (hnm : n ≤ m) (suf : List Char) : readFields p m (cs ++ suf) = some (fs,r ++ suf) := by
  induction n generalizing m cs fs with
  | zero => cases h
  | succ n ih =>
    obtain ⟨m,rfl⟩ := Nat.exists_eq_succ_of_ne_zero (by omega : m ≠ 0)
    unfold readFields at h ⊢
    split at h
    · rename_i ds hquote
      rw [skip_append (by rw [hquote]; exact List.cons_ne_nil _ _),hquote]
      obtain ⟨⟨k,es⟩,hk,h⟩ := Option.bind_eq_some_iff.mp h
      refine Option.bind_eq_some_iff.mpr ⟨_,readString_append hk (by simp) suf,?_⟩
      dsimp only at h ⊢
      split at h
      · rename_i gs hcolon
        rw [skip_append (by rw [hcolon]; exact List.cons_ne_nil _ _),hcolon]
        obtain ⟨⟨x,hs⟩,hx,h⟩ := Option.bind_eq_some_iff.mp h
        dsimp only at h
        split at h
        · rename_i is hcomma
          have hne : hs ≠ [] := by
            rintro rfl
            cases hcomma
          obtain ⟨⟨ys,js⟩,hys,h⟩ := Option.bind_eq_some_iff.mp h
          obtain ⟨rfl,rfl⟩ := Prod.mk.inj (Option.some.inj h)
          refine Option.bind_eq_some_iff.mpr ⟨_,hp _ _ _ hx hne suf,?_⟩
          dsimp only
          rw [skip_append (by rw [hcomma]; exact List.cons_ne_nil _ _),hcomma]
          exact Option.bind_eq_some_iff.mpr ⟨_,ih hys (by omega),rfl⟩
        · rename_i is hclose
          have hne : hs ≠ [] := by
            rintro rfl
            cases hclose
          obtain ⟨rfl,rfl⟩ := Prod.mk.inj (Option.some.inj h)
          refine Option.bind_eq_some_iff.mpr ⟨_,hp _ _ _ hx hne suf,?_⟩
          dsimp only
          rw [skip_append (by rw [hclose]; exact List.cons_ne_nil _ _),hclose]
          rfl
        · cases h
      · cases h
    · cases h

end Containers

theorem readNumber_digit {negative : Bool} {cs r : List Char} {v : Json}
    (h : readNumber negative cs = some (v,r)) : ∃ c ds, cs = c::ds ∧ c.isDigit = true := by
  cases cs with
  | nil => cases h
  | cons c ds =>
    refine ⟨c,ds,rfl,?_⟩
    by_contra hc
    simp [readNumber,hc] at h

theorem readNumber_value {negative : Bool} {cs r : List Char} {v : Json}
    (h : readNumber negative cs = some (v,r)) : v.isObject = false := by
  unfold readNumber at h
  dsimp only at h
  split at h
  · cases h
  · obtain ⟨⟨fraction,ds⟩,-,h⟩ := Option.bind_eq_some_iff.mp h
    obtain ⟨⟨exponent,es⟩,-,h⟩ := Option.bind_eq_some_iff.mp h
    dsimp only at h
    split at h
    · obtain ⟨rfl,-⟩ := Prod.mk.inj (Option.some.inj h)
      unfold integer
      dsimp only
      split_ifs <;> rfl
    · obtain ⟨rfl,-⟩ := Prod.mk.inj (Option.some.inj h)
      rfl

/-- A value is read the same whatever follows it, unless a number could go on. -/
theorem readSource_append {d : ℕ} {cs r : List Char} {v : Json} (h : readSource d cs = some (v,r))
    (hr : r ≠ [] ∨ v.isObject = true) (suf : List Char) :
    readSource d (cs ++ suf) = some (v,r ++ suf) := by
  induction d using Nat.strong_induction_on generalizing cs v r suf with
  | _ d ih =>
    have hskip : ∀ {ds : List Char} {c : Char}, skip cs = c::ds → skip (cs ++ suf) = c::ds ++ suf := by
      intro ds c hds
      rw [skip_append (by rw [hds]; exact List.cons_ne_nil _ _),hds]
    have hnumber : ∀ {negative : Bool} {ds : List Char}, readNumber negative ds = some (v,r) →
        readNumber negative (ds ++ suf) = some (v,r ++ suf) := by
      intro negative ds hds
      refine readNumber_append hds (hr.resolve_right ?_) suf
      rw [readNumber_value hds]
      exact Bool.false_ne_true
    have hinner : ∀ e < d, ∀ cs v r, readSource e cs = some (v,r) → r ≠ [] → ∀ suf,
        readSource e (cs ++ suf) = some (v,r ++ suf) :=
      fun e he cs v r h hr suf => ih e he h (.inl hr) suf
    unfold readSource at h
    split at h
    · rename_i ds hds
      obtain ⟨rfl,rfl⟩ := Prod.mk.inj (Option.some.inj h)
      unfold readSource
      rw [hskip hds]
      rfl
    · rename_i ds hds
      obtain ⟨rfl,rfl⟩ := Prod.mk.inj (Option.some.inj h)
      unfold readSource
      rw [hskip hds]
      rfl
    · rename_i ds hds
      obtain ⟨rfl,rfl⟩ := Prod.mk.inj (Option.some.inj h)
      unfold readSource
      rw [hskip hds]
      rfl
    · rename_i ds hds
      obtain ⟨⟨s,es⟩,hs,h⟩ := Option.bind_eq_some_iff.mp h
      obtain ⟨rfl,rfl⟩ := Prod.mk.inj (Option.some.inj h)
      unfold readSource
      rw [hskip hds]
      exact Option.bind_eq_some_iff.mpr ⟨_,readString_append hs (by simp) suf,rfl⟩
    · rename_i ds hds
      unfold readSource
      rw [hskip hds]
      exact hnumber h
    · rename_i ds hds
      unfold readSource
      rw [hskip hds]
      cases d with
      | zero => cases h
      | succ e =>
        simp only [List.cons_append] at h ⊢
        split at h
        · rename_i es hes
          obtain ⟨rfl,rfl⟩ := Prod.mk.inj (Option.some.inj h)
          rw [skip_append (by rw [hes]; exact List.cons_ne_nil _ _),hes]
          rfl
        · rename_i hclose
          obtain ⟨⟨xs,es⟩,hxs,h⟩ := Option.bind_eq_some_iff.mp h
          obtain ⟨rfl,rfl⟩ := Prod.mk.inj (Option.some.inj h)
          obtain ⟨c,gs,hgs⟩ : ∃ c gs, skip ds = c::gs := by
            cases hgs : skip ds with
            | nil => simp [hgs,readItems] at hxs
            | cons c gs => exact ⟨c,gs,rfl⟩
          have hne : c ≠ ']' := by
            rintro rfl
            exact hclose gs hgs
          rw [skip_append (by rw [hgs]; exact List.cons_ne_nil _ _)]
          rw [hgs] at hxs ⊢
          simp only [List.cons_append]
          split
          · rename_i heq
            exact absurd (List.cons.inj heq).1 hne
          · exact Option.bind_eq_some_iff.mpr
              ⟨_,readItems_append (hinner e (Nat.lt_succ_self e)) hxs (by simp) suf,rfl⟩
    · rename_i ds hds
      unfold readSource
      rw [hskip hds]
      cases d with
      | zero => cases h
      | succ e =>
        simp only [List.cons_append] at h ⊢
        split at h
        · rename_i es hes
          obtain ⟨rfl,rfl⟩ := Prod.mk.inj (Option.some.inj h)
          rw [skip_append (by rw [hes]; exact List.cons_ne_nil _ _),hes]
          rfl
        · rename_i hclose
          obtain ⟨⟨xs,es⟩,hxs,h⟩ := Option.bind_eq_some_iff.mp h
          obtain ⟨rfl,rfl⟩ := Prod.mk.inj (Option.some.inj h)
          obtain ⟨c,gs,hgs⟩ : ∃ c gs, skip ds = c::gs := by
            cases hgs : skip ds with
            | nil => simp [hgs,readFields] at hxs
            | cons c gs => exact ⟨c,gs,rfl⟩
          have hne : c ≠ '}' := by
            rintro rfl
            exact hclose gs hgs
          rw [skip_append (by rw [hgs]; exact List.cons_ne_nil _ _)]
          rw [hgs] at hxs ⊢
          simp only [List.cons_append]
          split
          · rename_i heq
            exact absurd (List.cons.inj heq).1 hne
          · exact Option.bind_eq_some_iff.mpr
              ⟨_,readFields_append (hinner e (Nat.lt_succ_self e)) hxs (by simp) suf,rfl⟩
    · -- a number, since it is none of the others
      obtain ⟨c,ds,hds,hc⟩ := readNumber_digit h
      have hb := digit_bounds hc
      have hread := hnumber h
      unfold readSource
      rw [hskip hds]
      rw [hds] at hread
      split <;> first
        | exact hread
        | (rename_i heq; rw [(List.cons.inj heq).1] at hb; exact absurd hb (by decide))

/-- No text ends inside a printed object as a value. -/
theorem source_prefix {fs : List (String × Json)} (hv : Written 127 (.obj fs)) {pre suf : List Char}
    (h : render (.obj fs) = pre ++ suf) (hsuf : suf ≠ []) : source pre = none := by
  cases hsource : source pre with
  | none => rfl
  | some w =>
    obtain ⟨⟨w,r⟩,hread,hend⟩ := Option.bind_eq_some_iff.mp hsource
    have hobject : w.isObject = true := by
      cases pre with
      | nil => cases hread
      | cons c cs =>
        rw [render] at h
        obtain ⟨rfl,-⟩ := List.cons.inj h
        unfold readSource at hread
        rw [skip_cons _ (by decide : blank '{' = false)] at hread
        simp only [] at hread
        split at hread
        · obtain ⟨rfl,-⟩ := Prod.mk.inj (Option.some.inj hread)
          rfl
        · obtain ⟨⟨gs,t⟩,-,hread⟩ := Option.bind_eq_some_iff.mp hread
          obtain ⟨rfl,-⟩ := Prod.mk.inj (Option.some.inj hread)
          rfl
    have hall := readSource_render hv ends_nil
    rw [List.append_nil,h,readSource_append hread (.inr hobject) suf] at hall
    have hnil := (Prod.mk.inj (Option.some.inj hall)).2
    exact absurd (List.append_eq_nil_iff.mp hnil).2 hsuf

end Json
end CanixToolbelt
