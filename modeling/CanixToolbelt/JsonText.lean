import CanixToolbelt.Json
import Mathlib.Data.Nat.Digits.Defs
import Mathlib.Data.Nat.Digits.Lemmas

/-! The text of JSON values: the compact printer, the reader, and that the reader
inverts the printer on every value without fractions. -/
namespace CanixToolbelt
namespace Json

/-! ## Printing -/

def decimal (n : ℕ) : List Char :=
  if n = 0 then ['0'] else ((Nat.digits 10 n).map Nat.digitChar).reverse

/-- The escape of one character: short escapes, `\u00xx` for other control
characters, everything else as it is. -/
def escapeChar (c : Char) : List Char :=
  if c = '"' then ['\\','"']
  else if c = '\\' then ['\\','\\']
  else if c = '\x08' then ['\\','b']
  else if c = '\t' then ['\\','t']
  else if c = '\n' then ['\\','n']
  else if c = '\x0c' then ['\\','f']
  else if c = '\r' then ['\\','r']
  else if c.toNat < 32 then
    ['\\','u','0','0',Nat.digitChar (c.toNat / 16),Nat.digitChar (c.toNat % 16)]
  else [c]

def renderString (s : String) : List Char := '"' :: s.toList.flatMap escapeChar ++ ['"']

mutual
def render : Json → List Char
  | .null => ['n','u','l','l']
  | .bool true => ['t','r','u','e']
  | .bool false => ['f','a','l','s','e']
  | .int (.ofNat n) => decimal n
  | .int (.negSucc n) => '-' :: decimal (n+1)
  | .float text => text.toList
  | .str s => renderString s
  | .arr items => '[' :: renderItems items
  | .obj fields => '{' :: renderFields fields
def renderItems : List Json → List Char
  | [] => [']']
  | [x] => render x ++ [']']
  | x::xs => render x ++ ',' :: renderItems xs
def renderFields : List (String × Json) → List Char
  | [] => ['}']
  | [(k,x)] => renderString k ++ ':' :: render x ++ ['}']
  | (k,x)::fs => renderString k ++ ':' :: render x ++ ',' :: renderFields fs
end

/-! ## Reading -/

def blank (c : Char) : Bool := c = ' ' || c = '\n' || c = '\t' || c = '\r'

def skip (cs : List Char) : List Char := cs.dropWhile blank

def hexValue (c : Char) : Option ℕ :=
  if '0' ≤ c ∧ c ≤ '9' then some (c.toNat - '0'.toNat)
  else if 'a' ≤ c ∧ c ≤ 'f' then some (c.toNat - 'a'.toNat + 10)
  else if 'A' ≤ c ∧ c ≤ 'F' then some (c.toNat - 'A'.toNat + 10)
  else none

def readHex : List Char → Option (ℕ × List Char)
  | a::b::c::d::cs => do
    let a ← hexValue a
    let b ← hexValue b
    let c ← hexValue c
    let d ← hexValue d
    some (((a*16+b)*16+c)*16+d,cs)
  | _ => none

/-- `\u` escapes: a leading surrogate needs its trailing one, no other is a character. -/
def readUnicode (cs : List Char) : Option (Char × List Char) := do
  let (n,cs) ← readHex cs
  if 0xd800 ≤ n ∧ n < 0xdc00 then
    match cs with
    | '\\' :: 'u' :: cs =>
      let (m,cs) ← readHex cs
      if 0xdc00 ≤ m ∧ m < 0xe000 then
        some (Char.ofNat (0x10000 + (n - 0xd800) * 0x400 + (m - 0xdc00)),cs)
      else none
    | _ => none
  else if 0xdc00 ≤ n ∧ n < 0xe000 then none
  else some (Char.ofNat n,cs)

def readEscape : List Char → Option (Char × List Char)
  | [] => none
  | c::cs =>
    if c = '"' then some ('"',cs)
    else if c = '\\' then some ('\\',cs)
    else if c = '/' then some ('/',cs)
    else if c = 'b' then some ('\x08',cs)
    else if c = 'f' then some ('\x0c',cs)
    else if c = 'n' then some ('\n',cs)
    else if c = 'r' then some ('\r',cs)
    else if c = 't' then some ('\t',cs)
    else if c = 'u' then readUnicode cs
    else none

/-- The rest of a string after its opening quote; the fuel is the text's length. -/
def readString : ℕ → List Char → Option (List Char × List Char)
  | 0, _ => none
  | _, [] => none
  | n+1, c::cs =>
    if c = '"' then some ([],cs)
    else if c = '\\' then do
      let (x,cs) ← readEscape cs
      let (s,cs) ← readString n cs
      some (x::s,cs)
    else if c.toNat < 32 then none
    else do
      let (s,cs) ← readString n cs
      some (c::s,cs)

def digitValue (ds : List Char) : ℕ := ds.foldl (fun n c => n*10 + (c.toNat - '0'.toNat)) 0

/-- An integer literal outside the 64-bit ranges is a float, as is `-0`. -/
def integer (negative : Bool) (ds : List Char) : Json :=
  let n := digitValue ds
  if negative then
    if n = 0 ∨ 2^63 < n then .float (String.ofList ('-' :: ds)) else .int (-n)
  else if n < 2^64 then .int n
  else .float (String.ofList ds)

/-- The text of a fraction part, empty when there is none. -/
def readFraction : List Char → Option (List Char × List Char)
  | '.' :: cs =>
    match cs.takeWhile Char.isDigit with
    | [] => none
    | ds => some ('.' :: ds,cs.dropWhile Char.isDigit)
  | cs => some ([],cs)

def readExponent : List Char → Option (List Char × List Char)
  | c::cs =>
    if c = 'e' ∨ c = 'E' then
      let (sign,cs) := match cs with
        | '+' :: cs => (['+'],cs)
        | '-' :: cs => (['-'],cs)
        | cs => ([],cs)
      match cs.takeWhile Char.isDigit with
      | [] => none
      | ds => some (c::sign ++ ds,cs.dropWhile Char.isDigit)
    else some ([],c::cs)
  | [] => some ([],[])

def readNumber (negative : Bool) (cs : List Char) : Option (Json × List Char) := do
  let ds := cs.takeWhile Char.isDigit
  let cs := cs.dropWhile Char.isDigit
  if ds = [] ∨ (ds.head? = some '0' ∧ ds.length ≠ 1) then none
  else
    let (fraction,cs) ← readFraction cs
    let (exponent,cs) ← readExponent cs
    if fraction = [] ∧ exponent = [] then some (integer negative ds,cs)
    else some (.float (String.ofList ((if negative then ['-'] else []) ++ ds ++ fraction ++ exponent)),cs)

def readItems (p : List Char → Option (Json × List Char)) :
    ℕ → List Char → Option (List Json × List Char)
  | 0, _ => none
  | n+1, cs => do
    let (x,cs) ← p cs
    match skip cs with
    | ',' :: cs =>
      let (xs,cs) ← readItems p n cs
      some (x::xs,cs)
    | ']' :: cs => some ([x],cs)
    | _ => none

def readFields (p : List Char → Option (Json × List Char)) :
    ℕ → List Char → Option (List (String × Json) × List Char)
  | 0, _ => none
  | n+1, cs =>
    match skip cs with
    | '"' :: cs => do
      let (k,cs) ← readString cs.length cs
      match skip cs with
      | ':' :: cs =>
        let (x,cs) ← p cs
        match skip cs with
        | ',' :: cs =>
          let (fs,cs) ← readFields p n cs
          some ((String.ofList k,x)::fs,cs)
        | '}' :: cs => some ([(String.ofList k,x)],cs)
        | _ => none
      | _ => none
    | _ => none

/-- A value nested at most `d` containers deep. -/
def readValue : ℕ → List Char → Option (Json × List Char)
  | d, cs =>
    match skip cs with
    | 'n' :: 'u' :: 'l' :: 'l' :: cs => some (.null,cs)
    | 't' :: 'r' :: 'u' :: 'e' :: cs => some (.bool true,cs)
    | 'f' :: 'a' :: 'l' :: 's' :: 'e' :: cs => some (.bool false,cs)
    | '"' :: cs => do
      let (s,cs) ← readString cs.length cs
      some (.str (String.ofList s),cs)
    | '-' :: cs => readNumber true cs
    | '[' :: cs =>
      match d with
      | 0 => none
      | d+1 =>
        match skip cs with
        | ']' :: cs => some (.arr [],cs)
        | cs => do
          let (xs,cs) ← readItems (readValue d) cs.length cs
          some (.arr xs,cs)
    | '{' :: cs =>
      match d with
      | 0 => none
      | d+1 =>
        match skip cs with
        | '}' :: cs => some (.obj [],cs)
        | cs => do
          let (fs,cs) ← readFields (readValue d) cs.length cs
          some (object fs,cs)
    | cs => readNumber false cs

/-- `serde_json::from_str`: one value, containers nested at most 127 deep. -/
def parse (cs : List Char) : Option Json := do
  let (v,cs) ← readValue 127 cs
  if skip cs = [] then some v else none

/-! ## Reading back what was printed -/

theorem hexValue_digitChar : ∀ d, d < 16 → hexValue (Nat.digitChar d) = some d := by decide

theorem readUnicode_control {c : Char} (h : c.toNat < 32) (cs : List Char) :
    readUnicode ('0' :: '0' :: Nat.digitChar (c.toNat / 16) :: Nat.digitChar (c.toNat % 16) :: cs) =
      some (c,cs) := by
  have h₁ := hexValue_digitChar (c.toNat / 16) (by omega)
  have h₂ := hexValue_digitChar (c.toNat % 16) (by omega)
  have h₀ : hexValue '0' = some 0 := by decide
  have hv : ((0*16+0)*16 + c.toNat / 16)*16 + c.toNat % 16 = c.toNat := by omega
  simp only [readUnicode,readHex,h₀,h₁,h₂,Option.bind_eq_bind,Option.bind_some,hv]
  rw [if_neg (by omega),if_neg (by omega),Char.ofNat_toNat]

/-- One printed character is read back with one unit of fuel. -/
theorem readString_escapeChar (c : Char) (n : ℕ) (cs : List Char) :
    readString (n+1) (escapeChar c ++ cs) =
      (readString n cs).map fun r => (c::r.1,r.2) := by
  have hm : ∀ (f : List Char × List Char → Option (List Char × List Char)) (o),
      (∀ r, f r = some (c::r.1,r.2)) → Option.bind o f = o.map fun r => (c::r.1,r.2) := by
    intro f o hf
    cases o with
    | none => rfl
    | some r => exact hf r
  unfold escapeChar
  split_ifs with h₁ h₂ h₃ h₄ h₅ h₆ h₇ h₈
  all_goals try subst c
  all_goals simp only [readString,List.cons_append,List.nil_append]
  case pos => simpa [readEscape] using hm _ _ fun _ => rfl
  case pos => simpa [readEscape] using hm _ _ fun _ => rfl
  case pos => simpa [readEscape] using hm _ _ fun _ => rfl
  case pos => simpa [readEscape] using hm _ _ fun _ => rfl
  case pos => simpa [readEscape] using hm _ _ fun _ => rfl
  case pos => simpa [readEscape] using hm _ _ fun _ => rfl
  case pos => simpa [readEscape] using hm _ _ fun _ => rfl
  case pos =>
    simpa [readEscape,readUnicode_control h₈] using hm _ _ fun _ => rfl
  case neg =>
    simpa [h₁,h₂,h₈] using hm _ _ fun _ => rfl

theorem readString_escape (s rest : List Char) {n : ℕ} (hn : s.length < n) :
    readString n (s.flatMap escapeChar ++ '"' :: rest) = some (s,rest) := by
  induction s generalizing n with
  | nil =>
    obtain ⟨m,rfl⟩ := Nat.exists_eq_succ_of_ne_zero (by omega : n ≠ 0)
    simp [readString]
  | cons c s ih =>
    obtain ⟨m,rfl⟩ := Nat.exists_eq_succ_of_ne_zero (by omega : n ≠ 0)
    simp only [List.flatMap_cons,List.append_assoc]
    rw [readString_escapeChar,ih (by simpa using hn)]
    rfl

theorem renderString_read (s : String) (rest : List Char) :
    ∃ cs, renderString s ++ rest = '"' :: cs ∧ readString cs.length cs = some (s.toList,rest) := by
  refine ⟨s.toList.flatMap escapeChar ++ '"' :: rest,by simp [renderString],?_⟩
  apply readString_escape
  have hlen : s.toList.length ≤ (s.toList.flatMap escapeChar).length := by
    rw [List.length_flatMap]
    refine List.length_le_sum_of_one_le _ ?_ |>.trans' (by simp)
    intro n hn
    obtain ⟨c,_,rfl⟩ := List.mem_map.mp hn
    unfold escapeChar
    split_ifs <;> simp
  simp only [List.length_append,List.length_cons]
  omega

theorem digitChar_isDigit : ∀ d, d < 10 → (Nat.digitChar d).isDigit = true := by decide

theorem digitChar_value : ∀ d, d < 10 → (Nat.digitChar d).toNat - '0'.toNat = d := by decide

theorem decimal_isDigit (n : ℕ) : ∀ c ∈ decimal n, c.isDigit = true := by
  unfold decimal
  split_ifs
  · simp [Char.isDigit]
  · intro c hc
    obtain ⟨d,hd,rfl⟩ := List.mem_map.mp (List.mem_reverse.mp hc)
    exact digitChar_isDigit d (Nat.digits_lt_base (by omega) hd)

theorem digitValue_append (ds : List Char) (c : Char) :
    digitValue (ds ++ [c]) = digitValue ds*10 + (c.toNat - '0'.toNat) := by
  simp [digitValue]

theorem digitValue_decimal (n : ℕ) : digitValue (decimal n) = n := by
  unfold decimal
  split_ifs with h
  · subst h; rfl
  · have hd : ∀ l : List ℕ, (∀ d ∈ l, d < 10) →
        digitValue (l.map Nat.digitChar).reverse = Nat.ofDigits 10 l := by
      intro l hl
      induction l with
      | nil => rfl
      | cons d l ih =>
        rw [List.map_cons,List.reverse_cons,digitValue_append,ih fun x hx => hl x (by simp [hx]),
          digitChar_value d (hl d (by simp)),Nat.ofDigits_cons]
        omega
    rw [hd _ fun d hd => Nat.digits_lt_base (by omega) hd,Nat.ofDigits_digits]

theorem decimal_ne_nil (n : ℕ) : decimal n ≠ [] := by
  unfold decimal
  split_ifs with h
  · simp
  · simpa using Nat.digits_ne_nil_iff_ne_zero.mpr h

/-- No leading zero: only zero itself starts with one. -/
theorem decimal_head (n : ℕ) (h : (decimal n).head? = some '0') : (decimal n).length = 1 := by
  unfold decimal at h ⊢
  split_ifs at h ⊢ with hn
  · rfl
  · rw [List.head?_reverse,List.getLast?_map,List.getLast?_eq_some_getLast
      (Nat.digits_ne_nil_iff_ne_zero.mpr hn),Option.map_some,Option.some_inj] at h
    have hz : ∀ d, d < 10 → Nat.digitChar d = '0' → d = 0 := by decide
    exact absurd (hz _ (Nat.digits_lt_base (by omega) (List.getLast_mem _)) h)
      (Nat.getLast_digit_ne_zero 10 hn)

/-- What may follow a number so that the number ends there. -/
def Ends (cs : List Char) : Prop :=
  ∀ c ∈ cs.head?, c.isDigit = false ∧ c ≠ '.' ∧ c ≠ 'e' ∧ c ≠ 'E'

theorem ends_nil : Ends [] := by simp [Ends]
theorem ends_cons {c : Char} (cs : List Char) (h : c = ',' ∨ c = ']' ∨ c = '}') : Ends (c::cs) := by
  intro c' hc'
  obtain rfl : c = c' := by simpa using hc'
  rcases h with rfl | rfl | rfl <;> decide

theorem readNumber_decimal (negative : Bool) (n : ℕ) {rest : List Char} (hr : Ends rest) :
    readNumber negative (decimal n ++ rest) = some (integer negative (decimal n),rest) := by
  have hrest : rest.takeWhile Char.isDigit = [] ∧ rest.dropWhile Char.isDigit = rest := by
    cases rest with
    | nil => simp
    | cons c cs => simp [(hr c (by simp)).1]
  have hf : readFraction rest = some ([],rest) := by
    cases rest with
    | nil => rfl
    | cons c cs =>
      have hc := (hr c (by simp)).2.1
      unfold readFraction
      split
      · rename_i h; cases h; exact absurd rfl hc
      · rfl
  have he : readExponent rest = some ([],rest) := by
    cases rest with
    | nil => rfl
    | cons c cs =>
      have hc := (hr c (by simp)).2.2
      simp [readExponent,hc.1,hc.2]
  have ht : (decimal n ++ rest).takeWhile Char.isDigit = decimal n := by
    rw [List.takeWhile_append_of_pos (decimal_isDigit n),hrest.1,List.append_nil]
  have hd : (decimal n ++ rest).dropWhile Char.isDigit = rest := by
    rw [List.dropWhile_append_of_pos (decimal_isDigit n),hrest.2]
  have hg : ¬ (decimal n = [] ∨ (decimal n).head? = some '0' ∧ (decimal n).length ≠ 1) := by
    rintro (h | ⟨h,h'⟩)
    · exact decimal_ne_nil n h
    · exact h' (decimal_head n h)
  simp only [readNumber,ht,hd,if_neg hg,hf,he,Option.bind_eq_bind,Option.bind_some,and_self,if_true]

/-- Values without fractions, with sorted objects, nested at most `d` deep. -/
inductive Plain : ℕ → Json → Prop
  | null {d : ℕ} : Plain d .null
  | bool {d : ℕ} (b : Bool) : Plain d (.bool b)
  | int {d : ℕ} {n : ℤ} (hl : -2^63 ≤ n) (hu : n < 2^64) : Plain d (.int n)
  | str {d : ℕ} (s : String) : Plain d (.str s)
  | arr {d : ℕ} {xs : List Json} (h : ∀ x ∈ xs, Plain d x) : Plain (d+1) (.arr xs)
  | obj {d : ℕ} {fs : List (String × Json)} (hs : fs.Pairwise fun a b => a.1 < b.1)
      (h : ∀ f ∈ fs, Plain d f.2) : Plain (d+1) (.obj fs)

theorem insertField_last (k : String) (v : Json) {fs : List (String × Json)}
    (h : ∀ f ∈ fs, f.1 < k) : insertField k v fs = fs ++ [(k,v)] := by
  induction fs with
  | nil => rfl
  | cons f fs ih =>
    obtain ⟨l,x⟩ := f
    have hl : l < k := h (l,x) (by simp)
    have hne : k ≠ l := by rintro rfl; exact String.lt_irrefl _ hl
    simp only [insertField,if_neg hne,if_neg (String.lt_asymm hl),List.cons_append]
    rw [ih fun f hf => h f (by simp [hf])]

/-- An object literal in key order keeps its fields as they stand. -/
theorem object_sorted {fs : List (String × Json)} (h : fs.Pairwise fun a b => a.1 < b.1) :
    object fs = .obj fs := by
  have hf : ∀ (fs acc : List (String × Json)), (acc ++ fs).Pairwise (fun a b => a.1 < b.1) →
      fs.foldl (fun fs f => insertField f.1 f.2 fs) acc = acc ++ fs := by
    intro fs
    induction fs with
    | nil => intro acc _; simp
    | cons f fs ih =>
      intro acc hp
      have hlt : ∀ g ∈ acc, g.1 < f.1 := fun g hg =>
        (List.pairwise_append.mp hp).2.2 g hg f (by simp)
      rw [List.foldl_cons,insertField_last _ _ hlt,ih _ (by simpa using hp)]
      simp
  rw [object,hf fs [] (by simpa using h),List.nil_append]

theorem skip_cons {c : Char} (cs : List Char) (h : blank c = false) : skip (c::cs) = c::cs := by
  simp [skip,h]

theorem digit_bounds {c : Char} (h : c.isDigit = true) : 48 ≤ c.toNat ∧ c.toNat ≤ 57 := by
  simp only [Char.isDigit,Bool.and_eq_true,decide_eq_true_eq,ge_iff_le] at h
  exact ⟨h.1,h.2⟩

theorem decimal_cons (n : ℕ) : ∃ c cs, decimal n = c::cs ∧ c.isDigit = true := by
  cases h : decimal n with
  | nil => exact absurd h (decimal_ne_nil n)
  | cons c cs => exact ⟨c,cs,rfl,decimal_isDigit n c (by simp [h])⟩

/-- Printed values start with a character that is no blank and closes nothing. -/
theorem render_head {d : ℕ} {v : Json} (h : Plain d v) :
    ∃ c cs, render v = c::cs ∧ blank c = false ∧ c ≠ ']' ∧ c ≠ '}' := by
  cases h with
  | null => exact ⟨_,_,rfl,by decide,by decide,by decide⟩
  | bool b => cases b <;> exact ⟨_,_,rfl,by decide,by decide,by decide⟩
  | @int _ n _ _ =>
    cases n with
    | ofNat n =>
      obtain ⟨c,cs,hc,hd⟩ := decimal_cons n
      have hb := digit_bounds hd
      refine ⟨c,cs,hc,?_,?_,?_⟩
      · simp only [blank,Bool.or_eq_false_iff,decide_eq_false_iff_not]
        refine ⟨⟨⟨?_,?_⟩,?_⟩,?_⟩ <;> rintro rfl <;> revert hb <;> decide
      · rintro rfl; revert hb; decide
      · rintro rfl; revert hb; decide
    | negSucc n => exact ⟨_,_,rfl,by decide,by decide,by decide⟩
  | str s => exact ⟨_,_,rfl,by decide,by decide,by decide⟩
  | arr h => exact ⟨_,_,rfl,by decide,by decide,by decide⟩
  | obj hs h => exact ⟨_,_,rfl,by decide,by decide,by decide⟩

section Containers
variable {p : List Char → Option (Json × List Char)} {d : ℕ}

theorem readItems_render {xs : List Json}
    (hp : ∀ x ∈ xs, ∀ rest, Ends rest → p (render x ++ rest) = some (x,rest)) (hx : xs ≠ [])
    {n : ℕ} (hn : xs.length ≤ n) (rest : List Char) :
    readItems p n (renderItems xs ++ rest) = some (xs,rest) := by
  induction xs generalizing n with
  | nil => exact absurd rfl hx
  | cons x xs ih =>
    obtain ⟨n,rfl⟩ := Nat.exists_eq_succ_of_ne_zero (by simp at hn; omega : n ≠ 0)
    cases xs with
    | nil =>
      have h := hp x (by simp) (']' :: rest) (ends_cons _ (by simp))
      simp [readItems,renderItems,h,skip_cons rest (by decide : blank ']' = false)]
    | cons y ys =>
      have h := hp x (by simp) (',' :: (renderItems (y::ys) ++ rest)) (ends_cons _ (by simp))
      have hi := ih (fun z hz => hp z (by simp [hz])) (by simp) (n := n) (by simpa using hn)
      simp only [renderItems,List.append_assoc,List.cons_append]
      simp [readItems,h,skip_cons _ (by decide : blank ',' = false),hi]

theorem readFields_render {fs : List (String × Json)}
    (hp : ∀ f ∈ fs, ∀ rest, Ends rest → p (render f.2 ++ rest) = some (f.2,rest)) (hx : fs ≠ [])
    {n : ℕ} (hn : fs.length ≤ n) (rest : List Char) :
    readFields p n (renderFields fs ++ rest) = some (fs,rest) := by
  induction fs generalizing n with
  | nil => exact absurd rfl hx
  | cons f fs ih =>
    obtain ⟨k,x⟩ := f
    obtain ⟨n,rfl⟩ := Nat.exists_eq_succ_of_ne_zero (by simp at hn; omega : n ≠ 0)
    cases fs with
    | nil =>
      obtain ⟨cs,hs,hk⟩ := renderString_read k (':' :: (render x ++ '}' :: rest))
      have h := hp (k,x) (by simp) ('}' :: rest) (ends_cons _ (by simp))
      have ht : renderFields [(k,x)] ++ rest = '"' :: cs := by
        rw [← hs]; simp [renderFields]
      simp [readFields,ht,hk,h,skip_cons _ (by decide : blank '"' = false),
        skip_cons _ (by decide : blank ':' = false),skip_cons _ (by decide : blank '}' = false)]
    | cons g gs =>
      obtain ⟨cs,hs,hk⟩ := renderString_read k
        (':' :: (render x ++ ',' :: (renderFields (g::gs) ++ rest)))
      have h := hp (k,x) (by simp) (',' :: (renderFields (g::gs) ++ rest)) (ends_cons _ (by simp))
      have hi := ih (fun z hz => hp z (by simp [hz])) (by simp) (n := n) (by simpa using hn)
      have ht : renderFields ((k,x)::g::gs) ++ rest = '"' :: cs := by
        rw [← hs]; simp [renderFields]
      simp [readFields,ht,hk,h,skip_cons _ (by decide : blank '"' = false),hi,
        skip_cons _ (by decide : blank ':' = false),skip_cons _ (by decide : blank ',' = false)]

theorem renderItems_length (xs : List Json) : xs.length ≤ (renderItems xs).length := by
  induction xs with
  | nil => simp
  | cons x xs ih =>
    cases xs with
    | nil => simp [renderItems]
    | cons y ys => simp only [renderItems,List.length_append,List.length_cons] at ih ⊢; omega

theorem renderFields_length (fs : List (String × Json)) : fs.length ≤ (renderFields fs).length := by
  induction fs with
  | nil => simp
  | cons f fs ih =>
    obtain ⟨k,x⟩ := f
    cases fs with
    | nil => simp [renderFields]; omega
    | cons g gs => simp only [renderFields,List.length_append,List.length_cons] at ih ⊢; omega

end Containers

theorem integer_false {n : ℕ} (h : n < 2^64) : integer false (decimal n) = .int n := by
  simp only [integer,digitValue_decimal,Bool.false_eq_true,if_false,if_pos h]

theorem integer_true {n : ℕ} (h₀ : n ≠ 0) (h : n ≤ 2^63) :
    integer true (decimal n) = .int (-(n : ℤ)) := by
  simp only [integer,digitValue_decimal,if_true]
  rw [if_neg (by omega)]

theorem readValue_digit (d : ℕ) {c : Char} (cs : List Char) (hc : c.isDigit = true) :
    readValue d (c::cs) = readNumber false (c::cs) := by
  have hb := digit_bounds hc
  have hs : skip (c::cs) = c::cs := by
    refine skip_cons cs ?_
    simp only [blank,Bool.or_eq_false_iff,decide_eq_false_iff_not]
    refine ⟨⟨⟨?_,?_⟩,?_⟩,?_⟩ <;> rintro rfl <;> exact absurd hb (by decide)
  unfold readValue
  rw [hs]
  split <;> first | rfl | (rename_i h; cases h; exact absurd hb (by decide))

/-- The reader inverts the printer, whatever follows the value. -/
theorem readValue_render {d : ℕ} {v : Json} (h : Plain d v) {rest : List Char} (hr : Ends rest) :
    readValue d (render v ++ rest) = some (v,rest) := by
  induction h generalizing rest with
  | @null d => cases d <;> simp [readValue,render,skip,blank]
  | @bool d b => cases b <;> cases d <;> simp [readValue,render,skip,blank]
  | @int d n hl hu =>
    cases n with
    | ofNat n =>
      obtain ⟨c,cs,hc,hd⟩ := decimal_cons n
      have hv : readNumber false (decimal n ++ rest) = some (.int n,rest) := by
        rw [readNumber_decimal false n hr,integer_false (by simpa using hu)]
      have hm : readValue d (decimal n ++ rest) = readNumber false (decimal n ++ rest) := by
        rw [hc]
        exact readValue_digit d _ hd
      simpa [render] using hm.trans hv
    | negSucc n =>
      have hv : readNumber true (decimal (n+1) ++ rest) = some (.int (.negSucc n),rest) := by
        rw [readNumber_decimal true (n+1) hr,integer_true (by omega) (by omega)]
        rfl
      unfold readValue
      simp only [render,List.cons_append]
      rw [skip_cons _ (by decide : blank '-' = false)]
      exact hv
  | @str d s =>
    obtain ⟨cs,hs,hk⟩ := renderString_read s rest
    unfold readValue
    simp only [render]
    rw [hs,skip_cons _ (by decide : blank '"' = false)]
    simp [hk]
  | @arr d xs hx ih =>
    simp only [render,List.cons_append]
    cases xs with
    | nil => simp [readValue,renderItems,skip,blank]
    | cons x xs =>
      have hi := readItems_render (p := readValue d) (fun y hy rest hr => ih y hy hr) (by simp)
        (n := (renderItems (x::xs) ++ rest).length)
        ((renderItems_length _).trans (by simp)) rest
      obtain ⟨c,cs,hc,hb,hne,_⟩ := render_head (hx x (by simp))
      have ht : ∃ ts, renderItems (x::xs) = c::ts := by
        cases xs <;> simp [renderItems,hc]
      obtain ⟨ts,ht⟩ := ht
      unfold readValue
      rw [skip_cons _ (by decide : blank '[' = false)]
      simp only []
      rw [ht,List.cons_append] at hi ⊢
      rw [skip_cons _ hb]
      split
      · rename_i h; cases h; exact absurd rfl hne
      · simp only [hi,Option.bind_eq_bind,Option.bind_some]
  | @obj d fs hs hx ih =>
    simp only [render,List.cons_append]
    cases fs with
    | nil => simp [readValue,renderFields,skip,blank]
    | cons f fs =>
      have hi := readFields_render (p := readValue d) (fun y hy rest hr => ih y hy hr) (by simp)
        (n := (renderFields (f::fs) ++ rest).length)
        ((renderFields_length _).trans (by simp)) rest
      have ht : ∃ ts, renderFields (f::fs) = '"' :: ts := by
        obtain ⟨k,x⟩ := f
        cases fs <;> simp [renderFields,renderString]
      obtain ⟨ts,ht⟩ := ht
      unfold readValue
      rw [skip_cons _ (by decide : blank '{' = false)]
      simp only []
      rw [ht,List.cons_append] at hi ⊢
      rw [skip_cons _ (by decide : blank '"' = false)]
      split
      · rename_i h; cases h
      · simp only [hi,Option.bind_eq_bind,Option.bind_some,object_sorted hs]

/-- Every printed value without fractions is read back as itself. -/
theorem parse_render {v : Json} (h : Plain 127 v) : parse (render v) = some v := by
  have hv := readValue_render h ends_nil
  rw [List.append_nil] at hv
  rw [parse,hv]
  rfl

/-! ## Printed text is printable -/

def Printable (cs : List Char) : Prop := ∀ c ∈ cs, 32 ≤ c.toNat

theorem printable_of_all {cs : List Char} (h : cs.all (32 ≤ ·.toNat) = true) : Printable cs :=
  fun c hc => of_decide_eq_true (List.all_eq_true.1 h c hc)

theorem printable_cons {c : Char} {cs : List Char} (hc : 32 ≤ c.toNat) (h : Printable cs) :
    Printable (c::cs) := by
  intro x hx
  rcases List.mem_cons.1 hx with rfl | hx
  · exact hc
  · exact h x hx

theorem printable_append {cs ds : List Char} (h : Printable cs) (h' : Printable ds) :
    Printable (cs ++ ds) := fun x hx => (List.mem_append.1 hx).elim (h x) (h' x)

theorem escapeChar_printable (c : Char) : Printable (escapeChar c) := by
  have hd : ∀ d, d < 16 → 32 ≤ (Nat.digitChar d).toNat := by decide
  unfold escapeChar
  split_ifs with h₁ h₂ h₃ h₄ h₅ h₆ h₇ h₈
  all_goals intro x hx; simp only [List.mem_cons,List.not_mem_nil,or_false] at hx
  · rcases hx with rfl | rfl <;> decide
  · rcases hx with rfl | rfl <;> decide
  · rcases hx with rfl | rfl <;> decide
  · rcases hx with rfl | rfl <;> decide
  · rcases hx with rfl | rfl <;> decide
  · rcases hx with rfl | rfl <;> decide
  · rcases hx with rfl | rfl <;> decide
  · rcases hx with rfl | rfl | rfl | rfl | rfl | rfl
    · decide
    · decide
    · decide
    · decide
    · exact hd _ (by omega)
    · exact hd _ (by omega)
  · rw [hx]; omega

theorem renderString_printable (s : String) : Printable (renderString s) := by
  have hq : 32 ≤ '"'.toNat := by decide
  refine printable_append (printable_cons hq fun c hc => ?_) (printable_cons hq nofun)
  obtain ⟨x,_,hx⟩ := List.mem_flatMap.1 hc
  exact escapeChar_printable x c hx

theorem decimal_printable (n : ℕ) : Printable (decimal n) := fun c hc => by
  have := digit_bounds (decimal_isDigit n c hc)
  omega

theorem renderItems_printable {xs : List Json} (h : ∀ x ∈ xs, Printable (render x)) :
    Printable (renderItems xs) := by
  induction xs with
  | nil => exact printable_cons (by decide) nofun
  | cons x xs ih =>
    have hx := h x (by simp)
    cases xs with
    | nil => exact printable_append hx (printable_cons (by decide) nofun)
    | cons y ys =>
      have hr := ih fun z hz => h z (List.mem_cons_of_mem _ hz)
      exact printable_append hx (printable_cons (by decide) hr)

theorem renderFields_printable {fs : List (String × Json)}
    (h : ∀ f ∈ fs, Printable (render f.2)) : Printable (renderFields fs) := by
  induction fs with
  | nil => exact printable_cons (by decide) nofun
  | cons f fs ih =>
    obtain ⟨k,x⟩ := f
    have hx : Printable (render x) := h (k,x) (by simp)
    have hk := renderString_printable k
    cases fs with
    | nil =>
      exact printable_append (printable_append hk (printable_cons (by decide) hx))
        (printable_cons (by decide) nofun)
    | cons g gs =>
      have hr := ih fun z hz => h z (List.mem_cons_of_mem _ hz)
      exact printable_append (printable_append hk (printable_cons (by decide) hx))
        (printable_cons (by decide) hr)

/-- The compact text of a value has no control character, hence no line break. -/
theorem render_printable {d : ℕ} {v : Json} (h : Plain d v) : Printable (render v) := by
  induction h with
  | null => exact printable_of_all rfl
  | bool b => cases b <;> exact printable_of_all rfl
  | @int _ n _ _ =>
    cases n with
    | ofNat n => exact decimal_printable n
    | negSucc n => exact printable_cons (by decide) (decimal_printable _)
  | str s => exact renderString_printable s
  | arr _ ih => exact printable_cons (by decide) (renderItems_printable ih)
  | obj _ _ ih => exact printable_cons (by decide) (renderFields_printable ih)

example : parse "\x7b\"a\":[1,-2,\"x\\u00e9\"],\"b\":null\x7d".toList =
    some (.obj [("a",.arr [.int 1,.int (-2),.str "xé"]),("b",.null)]) := by decide +kernel
example : parse "\x7b\"a".toList = none := by decide +kernel

end Json
end CanixToolbelt
