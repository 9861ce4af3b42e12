import CanixToolbelt.JsonText

/-! The canonical text of a JSON value, its digest, and that equal texts have equal parts. -/
namespace CanixToolbelt
namespace Canonical

open Json

/-- What the sources take from other crates and from floating point: the hexadecimal
SHA-256 of a text, the two spellings of a fractional number (`{:e}` split at its `e`, and
`to_string`), whether it is zero, and the clocks (an instant is in nanoseconds). -/
structure Library where
  sha256 : String → String
  scientific : String → List Char × ℤ
  display : String → List Char
  zero : String → Bool
  rfc3339 : String → Option ℤ
  millis : ℤ → Option ℤ

def numeral (c : Char) : Bool := c.isDigit || c = '-' || c = '+' || c = '.' || c = 'e'

/-- A finite number is spelled with digits, signs, a point and an exponent mark. -/
structure Library.Spells (lib : Library) : Prop where
  mantissa : ∀ t, (lib.scientific t).1 ≠ [] ∧ ∀ c ∈ (lib.scientific t).1, numeral c
  display : ∀ t, lib.display t ≠ [] ∧ ∀ c ∈ lib.display t, numeral c

/-- `encode_utf16`. -/
def encodeUtf16 (c : Char) : List ℕ :=
  if c.toNat < 0x10000 then [c.toNat]
  else [0xd800 + (c.toNat - 0x10000) / 0x400,0xdc00 + (c.toNat - 0x10000) % 0x400]

/-- `{unit:04x}`. -/
def hex4 (u : ℕ) : List Char :=
  [Nat.digitChar (u / 4096),Nat.digitChar (u / 256 % 16),Nat.digitChar (u / 16 % 16),
    Nat.digitChar (u % 16)]

def ascii (c : Char) : List Char :=
  if c.toNat ≤ 0x7e then [c] else (encodeUtf16 c).flatMap fun u => '\\' :: 'u' :: hex4 u

/-- The ASCII spelling of a string. -/
def string (s : String) : List Char := (renderString s).flatMap ascii

/-- `{exponent:+03}`. -/
def exponentText (e : ℤ) : List Char :=
  let digits := decimal e.natAbs
  (if e < 0 then '-' else '+') :: if digits.length < 2 then '0' :: digits else digits

/-- Texts joined by commas. -/
def join : List (List Char) → List Char
  | [] => []
  | t::ts => t ++ ts.flatMap (',' :: ·)

variable {α : Type}

def insertKey (k : String) (a : α) : List (String × α) → List (String × α)
  | [] => [(k,a)]
  | (k',a')::fs =>
    if k = k' then (k,a)::fs
    else if k < k' then (k,a)::(k',a')::fs
    else (k',a')::insertKey k a fs

/-- The entries of a map in the order of their keys. -/
def sortKeys (fs : List (String × α)) : List (String × α) :=
  fs.foldr (fun f gs => insertKey f.1 f.2 gs) []

def entry (f : String × List Char) : List Char := string f.1 ++ ':' :: f.2

variable (lib : Library)

def float (text : String) : List Char :=
  if ¬(-4 ≤ (lib.scientific text).2 ∧ (lib.scientific text).2 < 16) then
    (lib.scientific text).1 ++ 'e' :: exponentText (lib.scientific text).2
  else if '.' ∈ lib.display text then lib.display text
  else lib.display text ++ ['.','0']

mutual
def canonical : Json → List Char
  | .obj fields => '{' :: join ((sortKeys (canonicalFields fields)).map entry) ++ ['}']
  | .arr items => '[' :: join (canonicalItems items) ++ [']']
  | .str s => string s
  | .float text => float lib text
  | .null => render .null
  | .bool b => render (.bool b)
  | .int n => render (.int n)
def canonicalItems : List Json → List (List Char)
  | [] => []
  | x::xs => canonical x :: canonicalItems xs
def canonicalFields : List (String × Json) → List (String × List Char)
  | [] => []
  | (k,x)::fs => (k,canonical x) :: canonicalFields fs
end

def digest (v : Json) : String := lib.sha256 (String.ofList (canonical lib v))

/-! ## Sorted entries -/

theorem lookup_insertKey (k k' : String) (a : α) (fs : List (String × α)) :
    (insertKey k a fs).lookup k' = if k' = k then some a else fs.lookup k' := by
  induction fs with
  | nil =>
    by_cases h : k' = k
    · simp [insertKey,h]
    · simp [insertKey,h,List.lookup,beq_eq_false_iff_ne.mpr h]
  | cons f fs ih =>
    obtain ⟨l,x⟩ := f
    simp only [insertKey]
    split
    · rename_i h
      subst h
      by_cases h' : k' = k
      · simp [h']
      · simp [List.lookup,h',beq_eq_false_iff_ne.mpr h']
    · rename_i hne
      split
      · by_cases h' : k' = k
        · simp [h']
        · rw [List.lookup_cons,beq_eq_false_iff_ne.mpr h',if_neg h']
      · simp only [List.lookup_cons,ih]
        by_cases h' : k' = l
        · subst h'
          simp [Ne.symm hne]
        · simp [beq_eq_false_iff_ne.mpr h']

/-- Of two entries with one key the first is kept, as reading the key does. -/
theorem lookup_sortKeys (fs : List (String × α)) (k : String) :
    (sortKeys fs).lookup k = fs.lookup k := by
  induction fs with
  | nil => rfl
  | cons f fs ih =>
    simp only [sortKeys,List.foldr_cons] at ih ⊢
    rw [lookup_insertKey,ih,List.lookup_cons]
    by_cases h : k = f.1
    · simp [h]
    · simp [h,beq_eq_false_iff_ne.mpr h]

theorem mem_insertKey {k : String} {a : α} {fs : List (String × α)} {f : String × α}
    (h : f ∈ insertKey k a fs) : f = (k,a) ∨ f ∈ fs := by
  induction fs with
  | nil => simpa [insertKey] using h
  | cons g fs ih =>
    simp only [insertKey] at h
    split at h
    · simp at h ⊢
      tauto
    · split at h
      · simpa using h
      · simp at h ⊢
        tauto

theorem mem_sortKeys {fs : List (String × α)} {f : String × α} (h : f ∈ sortKeys fs) : f ∈ fs := by
  induction fs with
  | nil => exact h
  | cons g fs ih =>
    rcases mem_insertKey h with h | h
    · simp [h]
    · exact List.mem_cons_of_mem _ (ih h)

theorem canonicalItems_eq (xs : List Json) : canonicalItems lib xs = xs.map (canonical lib) := by
  induction xs with
  | nil => rfl
  | cons x xs ih => simp [canonicalItems,ih]

theorem canonicalFields_eq (fs : List (String × Json)) :
    canonicalFields lib fs = fs.map fun f => (f.1,canonical lib f.2) := by
  induction fs with
  | nil => rfl
  | cons f fs ih => simp [canonicalFields,ih]

/-! ## Strings -/

theorem readHex_hex4 {u : ℕ} (h : u < 0x10000) (cs : List Char) :
    readHex (hex4 u ++ cs) = some (u,cs) := by
  have h₁ := hexValue_digitChar (u / 4096) (by omega)
  have h₂ := hexValue_digitChar (u / 256 % 16) (by omega)
  have h₃ := hexValue_digitChar (u / 16 % 16) (by omega)
  have h₄ := hexValue_digitChar (u % 16) (by omega)
  have hv : ((u / 4096*16 + u / 256 % 16)*16 + u / 16 % 16)*16 + u % 16 = u := by omega
  simp only [hex4,List.cons_append,List.nil_append,readHex,h₁,h₂,h₃,h₄,Option.bind_eq_bind,
    Option.bind_some,hv]

theorem readUnicode_small {c : Char} (h : c.toNat < 0x10000) (cs : List Char) :
    readUnicode (hex4 c.toNat ++ cs) = some (c,cs) := by
  have hvalid : c.toNat < 0xd800 ∨ 0xdfff < c.toNat ∧ c.toNat < 0x110000 := c.valid
  rw [readUnicode,readHex_hex4 h]
  simp only [Option.bind_eq_bind,Option.bind_some]
  rw [if_neg (by omega),if_neg (by omega),Char.ofNat_toNat]

theorem readUnicode_pair (hi lo : ℕ) {n : ℕ} (hhi : hi < 0x400) (hlo : lo < 0x400)
    (hn : 0x10000 + hi * 0x400 + lo = n) (cs : List Char) :
    readUnicode (hex4 (0xd800 + hi) ++ '\\' :: 'u' :: (hex4 (0xdc00 + lo) ++ cs)) =
      some (Char.ofNat n,cs) := by
  have hh : 0xd800 ≤ 0xd800 + hi ∧ 0xd800 + hi < 0xdc00 := by omega
  have hl : 0xdc00 ≤ 0xdc00 + lo ∧ 0xdc00 + lo < 0xe000 := by omega
  rw [readUnicode,readHex_hex4 (by omega)]
  simp only [Option.bind_eq_bind,Option.bind_some]
  rw [if_pos hh,readHex_hex4 (by omega)]
  simp only [Option.bind_some]
  rw [if_pos hl,Nat.add_sub_cancel_left,Nat.add_sub_cancel_left,hn]

/-- The escaped units of a character outside ASCII are read back as it. -/
theorem readString_units {c : Char} (n : ℕ) (cs : List Char) :
    readString (n+1) (((encodeUtf16 c).flatMap fun u => '\\' :: 'u' :: hex4 u) ++ cs) =
      (readString n cs).map fun r => (c::r.1,r.2) := by
  have hm : ∀ o : Option (List Char × List Char),
      (Option.bind o fun r => some (c::r.1,r.2)) = o.map fun r => (c::r.1,r.2) := by
    intro o
    cases o <;> rfl
  have hread : ∀ ds, readUnicode ds = some (c,cs) →
      readString (n+1) ('\\' :: 'u' :: ds) = (readString n cs).map fun r => (c::r.1,r.2) := by
    intro ds hds
    simp [readString,readEscape,hds,hm]
  have hbound : c.toNat < 0x110000 := by
    have hvalid := c.valid
    rcases hvalid with h | h
    · exact Nat.lt_trans h (by omega)
    · exact h.2
  unfold encodeUtf16
  split_ifs with hsmall
  · simpa using hread _ (readUnicode_small hsmall cs)
  · have hpair := readUnicode_pair ((c.toNat - 0x10000) / 0x400) ((c.toNat - 0x10000) % 0x400)
      (n := c.toNat) (by omega) (by omega) (by omega) cs
    rw [Char.ofNat_toNat] at hpair
    simpa using hread _ hpair

theorem escapeChar_ascii {c : Char} (h : c.toNat ≤ 0x7e) :
    (escapeChar c).flatMap ascii = escapeChar c := by
  have hdigit : ∀ d, d < 16 → ascii (Nat.digitChar d) = [Nat.digitChar d] := by decide
  unfold escapeChar
  split_ifs
  · decide
  · decide
  · decide
  · decide
  · decide
  · decide
  · decide
  · simp [hdigit (c.toNat / 16) (by omega),hdigit (c.toNat % 16) (by omega),
      show ascii '\\' = ['\\'] by decide,show ascii 'u' = ['u'] by decide,
      show ascii '0' = ['0'] by decide]
  · simp [ascii,h]

theorem escapeChar_wide {c : Char} (h : 0x7e < c.toNat) : escapeChar c = [c] := by
  have hne : ∀ d : Char, d.toNat ≤ 0x7e → c ≠ d := by
    intro d hd hcd
    subst hcd
    omega
  simp [escapeChar,hne '"' (by decide),hne '\\' (by decide),hne '\x08' (by decide),
    hne '\t' (by decide),hne '\n' (by decide),hne '\x0c' (by decide),hne '\r' (by decide),
    show ¬ c.toNat < 32 by omega]

theorem readString_ascii (c : Char) (n : ℕ) (cs : List Char) :
    readString (n+1) ((escapeChar c).flatMap ascii ++ cs) =
      (readString n cs).map fun r => (c::r.1,r.2) := by
  by_cases h : c.toNat ≤ 0x7e
  · rw [escapeChar_ascii h,readString_escapeChar]
  · have hc : ascii c = (encodeUtf16 c).flatMap fun u => '\\' :: 'u' :: hex4 u := by simp [ascii,h]
    rw [escapeChar_wide (by omega),List.flatMap_cons,List.flatMap_nil,List.append_nil,hc]
    exact readString_units n cs

theorem readString_string (s rest : List Char) :
    readString (s.length+1) (s.flatMap (fun c => (escapeChar c).flatMap ascii) ++ '"' :: rest) =
      some (s,rest) := by
  induction s with
  | nil => simp [readString]
  | cons c s ih =>
    simp only [List.flatMap_cons,List.append_assoc,List.length_cons]
    rw [readString_ascii,ih]
    rfl

theorem string_eq (s : String) :
    string s = '"' :: s.toList.flatMap (fun c => (escapeChar c).flatMap ascii) ++ ['"'] := by
  simp [string,renderString,List.flatMap_assoc,show ascii '"' = ['"'] by decide]

/-- More fuel reads the same string. -/
theorem readString_mono {n m : ℕ} {cs : List Char} {r : List Char × List Char} (hnm : n ≤ m)
    (h : readString n cs = some r) : readString m cs = some r := by
  induction n generalizing m cs r with
  | zero => simp [readString] at h
  | succ n ih =>
    obtain ⟨m,rfl⟩ : ∃ k, m = k + 1 := ⟨m-1,by omega⟩
    cases cs with
    | nil => simp [readString] at h
    | cons c cs =>
      simp only [readString] at h ⊢
      split_ifs at h ⊢
      · exact h
      · cases he : readEscape cs with
        | none => simp [he] at h
        | some x =>
          simp only [he,Option.bind_eq_bind,Option.bind_some] at h ⊢
          cases hr : readString n x.2 with
          | none => simp [hr] at h
          | some y =>
            have hm : readString m x.2 = some y := ih (by omega) hr
            simpa [hm,hr] using h
      · cases hr : readString n cs with
        | none => simp [hr] at h
        | some y =>
          have hm : readString m cs = some y := ih (by omega) hr
          simpa [hm,hr] using h

/-- The spelling of a string ends where its closing quote stands. -/
theorem string_inj {s t : String} {r r' : List Char} (h : string s ++ r = string t ++ r') :
    s = t ∧ r = r' := by
  rw [string_eq,string_eq] at h
  simp only [List.cons_append,List.append_assoc,List.nil_append,List.cons.injEq,true_and] at h
  have hs := readString_mono (Nat.le_max_left _ (t.toList.length+1)) (readString_string s.toList r)
  have ht := readString_mono (Nat.le_max_right (s.toList.length+1) _) (readString_string t.toList r')
  rw [h,ht] at hs
  simp only [Option.some_inj,Prod.mk.injEq] at hs
  exact ⟨String.toList_injective hs.1.symm,hs.2.symm⟩

/-! ## Unique reading -/

/-- What follows a value inside another one, or nothing. -/
def Stops (cs : List Char) : Prop := ∀ c ∈ cs.head?, c = ',' ∨ c = ']' ∨ c = '}'

theorem stops_nil : Stops [] := by simp [Stops]
theorem stops_cons {c : Char} (cs : List Char) (h : c = ',' ∨ c = ']' ∨ c = '}') : Stops (c::cs) := by
  intro c' hc'
  obtain rfl : c = c' := by simpa using hc'
  exact h

/-- Neither a separator nor the start of a string or a container. -/
def word (c : Char) : Bool :=
  c ≠ ',' && c ≠ ']' && c ≠ '}' && c ≠ '"' && c ≠ '[' && c ≠ '{'

/-- A literal or a number. -/
def Word (t : List Char) : Prop := t ≠ [] ∧ ∀ c ∈ t, word c

instance (t : List Char) : Decidable (Word t) :=
  decidable_of_iff (t ≠ [] ∧ t.all word = true) (by simp only [Word,List.all_eq_true])

theorem word_of_numeral {c : Char} (h : numeral c) : word c := by
  have hne : ∀ d : Char, numeral d = false → c ≠ d := by
    intro d hd hcd
    subst hcd
    simp [hd] at h
  simp [word,hne ',' (by decide),hne ']' (by decide),hne '}' (by decide),hne '"' (by decide),
    hne '[' (by decide),hne '{' (by decide)]

theorem word_decimal (n : ℕ) : Word (decimal n) :=
  ⟨decimal_ne_nil n,fun c hc => word_of_numeral (by simp [numeral,decimal_isDigit n c hc])⟩

theorem word_null : Word (render .null) := by decide
theorem word_bool (b : Bool) : Word (render (.bool b)) := by cases b <;> decide

theorem word_split {t u r s : List Char} (ht : ∀ c ∈ t, word c) (hu : ∀ c ∈ u, word c)
    (hr : Stops r) (hs : Stops s) (h : t ++ r = u ++ s) : t = u ∧ r = s := by
  have htake : ∀ {t r : List Char}, (∀ c ∈ t, word c) → Stops r → (t ++ r).takeWhile word = t := by
    intro t r ht hr
    rw [List.takeWhile_append_of_pos ht]
    cases r with
    | nil => simp
    | cons c r =>
      have hc : word c = false := by
        rcases hr c (by simp) with rfl | rfl | rfl <;> decide
      simp [hc]
  have htu : t = u := by rw [← htake ht hr,h,htake hu hs]
  subst htu
  exact ⟨rfl,List.append_cancel_left h⟩

variable {lib}

theorem word_float (hlib : lib.Spells) (text : String) : Word (float lib text) := by
  have hmantissa := hlib.mantissa text
  have hdisplay := hlib.display text
  have hexponent : ∀ c ∈ exponentText (lib.scientific text).2, word c := by
    intro c hc
    simp only [exponentText,List.mem_cons] at hc
    rcases hc with rfl | hc
    · split <;> decide
    · split at hc
      · rcases List.mem_cons.mp hc with rfl | hc
        · decide
        · exact (word_decimal _).2 c hc
      · exact (word_decimal _).2 c hc
  have hword : ∀ c ∈ lib.display text, word c := fun c hc => word_of_numeral (hdisplay.2 c hc)
  unfold float
  split_ifs with hplain hpoint
  · exact ⟨hdisplay.1,hword⟩
  · refine ⟨by simp,fun c hc => ?_⟩
    rcases List.mem_append.mp hc with hc | hc
    · exact hword c hc
    · have hc' : c = '.' ∨ c = '0' := by simpa using hc
      rcases hc' with rfl | rfl <;> decide
  · refine ⟨by simp,fun c hc => ?_⟩
    rcases List.mem_append.mp hc with hc | hc
    · exact word_of_numeral (hmantissa.2 c hc)
    · rcases List.mem_cons.mp hc with rfl | hc
      · decide
      · exact hexponent c hc

/-- The kind of a value is its first character. -/
inductive Shape : List Char → Json → Prop
  | word {t v} : Word t → (∀ xs, v ≠ .arr xs) → (∀ fs, v ≠ .obj fs) → (∀ s, v ≠ .str s) → Shape t v
  | str {t} (s) : t = string s → Shape t (.str s)
  | arr (ts xs) : Shape ('[' :: ts) (.arr xs)
  | obj (ts fs) : Shape ('{' :: ts) (.obj fs)

theorem word_int (n : ℤ) : Word (render (.int n)) := by
  cases n with
  | ofNat n => exact word_decimal n
  | negSucc n =>
    refine ⟨by simp [render],fun c hc => ?_⟩
    rcases List.mem_cons.mp hc with rfl | hc
    · decide
    · exact (word_decimal _).2 c hc

theorem shape_canonical (hlib : lib.Spells) (v : Json) : Shape (canonical lib v) v := by
  cases v with
  | null => exact .word word_null (by simp) (by simp) (by simp)
  | bool b => exact .word (word_bool b) (by simp) (by simp) (by simp)
  | int n => exact .word (word_int n) (by simp) (by simp) (by simp)
  | float t => exact .word (word_float hlib t) (by simp) (by simp) (by simp)
  | str s =>
    simp only [canonical]
    exact .str s rfl
  | arr xs =>
    simp only [canonical]
    exact .arr _ _
  | obj fs =>
    simp only [canonical]
    exact .obj _ _

/-- A first character that neither separates nor closes. -/
def Starts (t : List Char) : Prop := ∃ c cs, t = c::cs ∧ c ≠ ',' ∧ c ≠ ']' ∧ c ≠ '}'

theorem starts_string (s : String) (cs : List Char) : Starts (string s ++ cs) := by
  rw [string_eq]
  exact ⟨'"',_,rfl,by decide,by decide,by decide⟩

theorem starts_canonical (hlib : lib.Spells) (v : Json) : Starts (canonical lib v) := by
  have hshape := shape_canonical hlib v
  generalize canonical lib v = t at hshape
  cases hshape with
  | word h =>
    obtain ⟨c,cs,hc⟩ := List.exists_cons_of_ne_nil h.1
    have hw := h.2 c (by simp [hc])
    simp only [word,Bool.and_eq_true,decide_eq_true_eq] at hw
    exact ⟨c,cs,hc,by simp_all,by simp_all,by simp_all⟩
  | str s hs => simpa [hs] using starts_string s []
  | arr ts xs => exact ⟨'[',ts,rfl,by decide,by decide,by decide⟩
  | obj ts fs => exact ⟨'{',ts,rfl,by decide,by decide,by decide⟩

/-- Whatever follows, `t` is read in only one way among the texts of `P`. -/
def Splits (P : List Char → Prop) (t : List Char) : Prop :=
  ∀ u, P u → ∀ r s, Stops r → Stops s → t ++ r = u ++ s → t = u ∧ r = s

section Joining
variable {P : List Char → Prop} {c : Char}

theorem tail_split (hc : c = ']' ∨ c = '}') {ts us : List (List Char)} {r s} (ht : ∀ t ∈ ts, Splits P t)
    (hu : ∀ u ∈ us, P u) (h : ts.flatMap (',' :: ·) ++ c::r = us.flatMap (',' :: ·) ++ c::s) :
    ts = us ∧ r = s := by
  have hstop : ∀ (ts : List (List Char)) r, Stops (ts.flatMap (',' :: ·) ++ c::r) := by
    intro ts r
    cases ts with
    | nil => exact stops_cons r (by tauto)
    | cons t ts => exact stops_cons _ (by simp)
  have hcomma : c ≠ ',' := by rcases hc with rfl | rfl <;> decide
  induction ts generalizing us with
  | nil =>
    cases us with
    | nil => simpa using h
    | cons u us =>
      simp only [List.flatMap_nil,List.flatMap_cons,List.cons_append,List.nil_append,
        List.cons.injEq] at h
      exact absurd h.1 hcomma
  | cons t ts ih =>
    cases us with
    | nil =>
      simp only [List.flatMap_nil,List.flatMap_cons,List.cons_append,List.nil_append,
        List.cons.injEq] at h
      exact absurd h.1.symm hcomma
    | cons u us =>
      simp only [List.flatMap_cons,List.cons_append,List.append_assoc,List.cons.injEq,true_and] at h
      obtain ⟨htu,hrest⟩ := ht t (by simp) u (hu u (by simp)) _ _ (hstop ts r) (hstop us s) h
      obtain ⟨hts,hrs⟩ := ih (fun t h => ht t (by simp [h])) (fun u h => hu u (by simp [h])) hrest
      simp [htu,hts,hrs]

theorem join_split (hc : c = ']' ∨ c = '}') {ts us : List (List Char)} {r s} (ht : ∀ t ∈ ts, Splits P t ∧ Starts t)
    (hu : ∀ u ∈ us, P u ∧ Starts u) (h : join ts ++ c::r = join us ++ c::s) : ts = us ∧ r = s := by
  have hclose : ∀ {t : List Char} {cs ds}, Starts t → c::cs ≠ t ++ ds := by
    intro t cs ds hstart heq
    obtain ⟨a,as,hta,hne⟩ := hstart
    rw [hta,List.cons_append,List.cons.injEq] at heq
    rcases hc with rfl | rfl
    · exact hne.2.1 heq.1.symm
    · exact hne.2.2 heq.1.symm
  have hstop : ∀ (ts : List (List Char)) r, Stops (ts.flatMap (',' :: ·) ++ c::r) := by
    intro ts r
    cases ts with
    | nil => exact stops_cons r (by tauto)
    | cons t ts => exact stops_cons _ (by simp)
  cases ts with
  | nil =>
    cases us with
    | nil => simpa [join] using h
    | cons u us =>
      simp only [join,List.nil_append,List.append_assoc] at h
      exact absurd h (hclose (hu u (by simp)).2)
  | cons t ts =>
    cases us with
    | nil =>
      simp only [join,List.nil_append,List.append_assoc] at h
      exact absurd h.symm (hclose (ht t (by simp)).2)
    | cons u us =>
      simp only [join,List.append_assoc] at h
      obtain ⟨htu,hrest⟩ := (ht t (by simp)).1 u (hu u (by simp)).1 _ _ (hstop ts r) (hstop us s) h
      obtain ⟨hts,hrs⟩ := tail_split hc (fun t h => (ht t (by simp [h])).1)
        (fun u h => (hu u (by simp [h])).1) hrest
      simp [htu,hts,hrs]

end Joining

/-- The texts of values. -/
def Value (lib : Library) (t : List Char) : Prop := ∃ v, t = canonical lib v
def Entry (lib : Library) (t : List Char) : Prop := ∃ k v, t = entry (k,canonical lib v)

theorem entry_split {k : String} {t : List Char} (h : Splits (Value lib) t) :
    Splits (Entry lib) (entry (k,t)) := by
  intro u hu r s hr hs heq
  obtain ⟨k',w,rfl⟩ := hu
  simp only [entry,List.append_assoc,List.cons_append] at heq
  obtain ⟨hk,hrest⟩ := string_inj heq
  obtain ⟨ht,hrs⟩ := h _ ⟨w,rfl⟩ r s hr hs (by simpa using hrest)
  simp [hk,ht,hrs]

theorem starts_entry (f : String × List Char) : Starts (entry f) := starts_string _ _

theorem entry_inj {f g : String × List Char} (h : entry f = entry g) : f = g := by
  obtain ⟨hk,ht⟩ := string_inj h
  exact Prod.ext hk (by simpa using ht)

theorem word_splits (hlib : lib.Spells) {t : List Char} (h : Word t) : Splits (Value lib) t := by
  intro u hu r s hr hs heq
  obtain ⟨w,rfl⟩ := hu
  obtain ⟨a,as,rfl⟩ := List.exists_cons_of_ne_nil h.1
  have ha := h.2 a (by simp)
  generalize hw : canonical lib w = u at heq
  have hshape := shape_canonical hlib w
  rw [hw] at hshape
  cases hshape with
  | word hu => exact word_split h.2 hu.2 hr hs heq
  | str x hx =>
    rw [hx,string_eq] at heq
    simp only [List.cons_append,List.cons.injEq] at heq
    simp [heq.1,word] at ha
  | arr ts xs =>
    simp only [List.cons_append,List.cons.injEq] at heq
    simp [heq.1,word] at ha
  | obj ts fs =>
    simp only [List.cons_append,List.cons.injEq] at heq
    simp [heq.1,word] at ha

/-- A value whose text starts with a bracket or a quote is a container or a string. -/
theorem shape_head (hlib : lib.Spells) {w : Json} {c : Char} {cs s : List Char}
    (h : c::cs = canonical lib w ++ s) :
    (c = '"' → ∃ x, w = .str x) ∧ (c = '[' → ∃ xs, w = .arr xs) ∧ (c = '{' → ∃ fs, w = .obj fs) := by
  generalize hw : canonical lib w = u at h
  have hshape := shape_canonical hlib w
  rw [hw] at hshape
  cases hshape with
  | word hu =>
    obtain ⟨a,as,rfl⟩ := List.exists_cons_of_ne_nil hu.1
    have ha := hu.2 a (by simp)
    simp only [List.cons_append,List.cons.injEq] at h
    rw [← h.1] at ha
    refine ⟨?_,?_,?_⟩ <;> (intro hc; simp [hc,word] at ha)
  | str x hx =>
    rw [hx,string_eq] at h
    simp only [List.cons_append,List.cons.injEq] at h
    simp [h.1]
  | arr ts xs =>
    simp only [List.cons_append,List.cons.injEq] at h
    simp [h.1]
  | obj ts fs =>
    simp only [List.cons_append,List.cons.injEq] at h
    simp [h.1]

theorem arr_splits (hlib : lib.Spells) {xs : List Json}
    (ih : ∀ x ∈ xs, Splits (Value lib) (canonical lib x)) :
    Splits (Value lib) (canonical lib (.arr xs)) := by
  intro u hu r s hr hs heq
  obtain ⟨w,rfl⟩ := hu
  simp only [canonical] at heq
  obtain ⟨ys,rfl⟩ := (shape_head hlib heq).2.1 rfl
  simp only [canonical,List.cons_append,List.append_assoc,List.nil_append,List.cons.injEq,
    true_and,canonicalItems_eq] at heq
  obtain ⟨htexts,hrest⟩ := join_split (P := Value lib) (.inl rfl)
    (by simpa using fun x hx => ⟨ih x hx,starts_canonical hlib x⟩)
    (by simpa using fun y _ => ⟨⟨y,rfl⟩,starts_canonical hlib y⟩) heq
  simp [canonical,canonicalItems_eq,htexts,hrest]

/-- The ordered entries of an object's text. -/
def entries (lib : Library) (fs : List (String × Json)) : List (List Char) :=
  (sortKeys (fs.map fun f => (f.1,canonical lib f.2))).map entry

theorem canonical_obj (fs : List (String × Json)) :
    canonical lib (.obj fs) = '{' :: join (entries lib fs) ++ ['}'] := by
  simp [canonical,canonicalFields_eq,entries]

theorem mem_entries {fs : List (String × Json)} {t : List Char} (h : t ∈ entries lib fs) :
    ∃ f ∈ fs, t = entry (f.1,canonical lib f.2) := by
  obtain ⟨g,hg,rfl⟩ := List.mem_map.mp h
  obtain ⟨f,hf,rfl⟩ := List.mem_map.mp (mem_sortKeys hg)
  exact ⟨f,hf,rfl⟩

theorem entries_split {fs gs : List (String × Json)} {r s : List Char}
    (ih : ∀ f ∈ fs, Splits (Value lib) (canonical lib f.2))
    (h : join (entries lib fs) ++ '}'::r = join (entries lib gs) ++ '}'::s) :
    entries lib fs = entries lib gs ∧ r = s := by
  apply join_split (P := Entry lib) (.inr rfl) _ _ h
  · intro t ht
    obtain ⟨f,hf,rfl⟩ := mem_entries ht
    exact ⟨entry_split (ih f hf),starts_entry _⟩
  · intro t ht
    obtain ⟨f,_,rfl⟩ := mem_entries ht
    exact ⟨⟨f.1,f.2,rfl⟩,starts_entry _⟩

theorem obj_splits (hlib : lib.Spells) {fs : List (String × Json)}
    (ih : ∀ f ∈ fs, Splits (Value lib) (canonical lib f.2)) :
    Splits (Value lib) (canonical lib (.obj fs)) := by
  intro u hu r s hr hs heq
  obtain ⟨w,rfl⟩ := hu
  rw [canonical_obj] at heq
  obtain ⟨gs,rfl⟩ := (shape_head hlib heq).2.2 rfl
  rw [canonical_obj] at heq
  simp only [List.cons_append,List.append_assoc,List.nil_append,List.cons.injEq,true_and] at heq
  obtain ⟨htexts,hrest⟩ := entries_split ih heq
  simp [canonical_obj,htexts,hrest]

mutual
theorem canonical_splits (hlib : lib.Spells) : ∀ v, Splits (Value lib) (canonical lib v)
  | .null => word_splits hlib word_null
  | .bool b => word_splits hlib (word_bool b)
  | .int n => word_splits hlib (word_int n)
  | .float t => by
    simp only [canonical]
    exact word_splits hlib (word_float hlib t)
  | .str x => by
    intro u hu r s _ _ heq
    obtain ⟨w,rfl⟩ := hu
    simp only [canonical] at heq
    have heq' := heq
    rw [string_eq] at heq'
    obtain ⟨y,rfl⟩ := (shape_head hlib heq').1 rfl
    simp only [canonical] at heq
    obtain ⟨hxy,hrs⟩ := string_inj heq
    exact ⟨by rw [hxy],hrs⟩
  | .arr xs => arr_splits hlib (items_splits hlib xs)
  | .obj fs => obj_splits hlib (fields_splits hlib fs)
theorem items_splits (hlib : lib.Spells) : ∀ xs : List Json, ∀ x ∈ xs,
    Splits (Value lib) (canonical lib x)
  | [] => by simp
  | x::xs => by
    intro y hy
    rcases List.mem_cons.mp hy with h | h
    · rw [h]
      exact canonical_splits hlib x
    · exact items_splits hlib xs y h
theorem fields_splits (hlib : lib.Spells) : ∀ fs : List (String × Json), ∀ f ∈ fs,
    Splits (Value lib) (canonical lib f.2)
  | [] => by simp
  | (k,x)::fs => by
    intro g hg
    rcases List.mem_cons.mp hg with h | h
    · rw [h]
      exact canonical_splits hlib x
    · exact fields_splits hlib fs g h
end

/-! ## Equal texts, equal parts -/

theorem canonical_arr_inj (hlib : lib.Spells) {xs ys : List Json}
    (h : canonical lib (.arr xs) = canonical lib (.arr ys)) :
    xs.map (canonical lib) = ys.map (canonical lib) := by
  simp only [canonical,canonicalItems_eq,List.cons_append,List.cons.injEq,true_and] at h
  exact (join_split (P := Value lib) (.inl rfl)
    (by simpa using fun x _ => ⟨canonical_splits hlib x,starts_canonical hlib x⟩)
    (by simpa using fun y _ => ⟨⟨y,rfl⟩,starts_canonical hlib y⟩) h).1

theorem lookup_texts (fs : List (String × Json)) (k : String) :
    (fs.map fun f => (f.1,canonical lib f.2)).lookup k = (fs.lookup k).map (canonical lib) := by
  induction fs with
  | nil => rfl
  | cons f fs ih =>
    obtain ⟨l,x⟩ := f
    simp only [List.map_cons,List.lookup_cons,ih]
    cases k == l <;> rfl

/-- Objects with one text have, under every key, values with one text. -/
theorem canonical_get? (hlib : lib.Spells) {fs gs : List (String × Json)}
    (h : canonical lib (.obj fs) = canonical lib (.obj gs)) (k : String) :
    ((Json.obj fs).get? k).map (canonical lib) = ((Json.obj gs).get? k).map (canonical lib) := by
  simp only [canonical_obj,List.cons_append,List.cons.injEq,true_and] at h
  have htexts := (entries_split (fun f _ => canonical_splits hlib f.2) h).1
  have hsorted := List.map_injective_iff.mpr (fun _ _ => entry_inj) htexts
  have hlookup := congrArg (List.lookup k) hsorted
  rwa [lookup_sortKeys,lookup_sortKeys,lookup_texts,lookup_texts] at hlookup

theorem canonical_str_inj {s t : String} (h : canonical lib (.str s) = canonical lib (.str t)) :
    s = t := by
  simp only [canonical] at h
  have h : string s ++ [] = string t ++ [] := by simpa using h
  exact (string_inj h).1

theorem canonical_nat_inj {n m : ℕ} (h : canonical lib (nat n) = canonical lib (nat m)) : n = m := by
  have hd : decimal n = decimal m := h
  rw [← digitValue_decimal n,hd,digitValue_decimal]

theorem digest_canonical (hsha : Function.Injective lib.sha256) {v w : Json}
    (h : digest lib v = digest lib w) : canonical lib v = canonical lib w :=
  String.ofList_injective (hsha h)

/-! ## Texts of equal maps -/

theorem mem_keys_insertKey {k l : String} {a : α} {fs : List (String × α)} :
    l ∈ (insertKey k a fs).map Prod.fst ↔ l = k ∨ l ∈ fs.map Prod.fst := by
  induction fs with
  | nil => simp [insertKey]
  | cons f fs ih =>
    obtain ⟨k',a'⟩ := f
    simp only [insertKey]
    split
    · rename_i h
      simp [h]
    · split
      · simp
      · rw [List.map_cons,List.mem_cons,ih]
        simp only [List.map_cons,List.mem_cons]
        tauto

theorem keys_insertKey (k : String) (a : α) {fs : List (String × α)}
    (h : (fs.map Prod.fst).Pairwise (· < ·)) :
    ((insertKey k a fs).map Prod.fst).Pairwise (· < ·) := by
  induction fs with
  | nil => simp [insertKey]
  | cons f fs ih =>
    obtain ⟨k',a'⟩ := f
    simp only [List.map_cons,List.pairwise_cons] at h
    simp only [insertKey]
    split
    · rename_i hk
      simpa [hk] using h
    · rename_i hk
      split
      · rename_i hlt
        simp only [List.map_cons,List.pairwise_cons,List.mem_cons]
        refine ⟨fun l hl => ?_,h⟩
        rcases hl with rfl | hl
        · exact hlt
        · exact String.lt_trans hlt (h.1 l hl)
      · rename_i hlt
        simp only [List.map_cons,List.pairwise_cons]
        refine ⟨fun l hl => ?_,ih h.2⟩
        rcases mem_keys_insertKey.mp hl with rfl | hl
        · by_contra hno
          exact hk (String.le_antisymm (String.not_lt.mp hno) (String.not_lt.mp hlt))
        · exact h.1 l hl

theorem sortKeys_sorted (fs : List (String × α)) :
    ((sortKeys fs).map Prod.fst).Pairwise (· < ·) := by
  induction fs with
  | nil => exact .nil
  | cons f fs ih => exact keys_insertKey f.1 f.2 ih

theorem mem_keys_iff {fs : List (String × α)} {k : String} :
    k ∈ fs.map Prod.fst ↔ (fs.lookup k).isSome = true := by
  induction fs with
  | nil => simp
  | cons f fs ih =>
    obtain ⟨l,x⟩ := f
    rw [List.map_cons,List.mem_cons,ih,List.lookup_cons]
    by_cases hk : k = l
    · simp [hk]
    · simp [hk,beq_eq_false_iff_ne.mpr hk]

/-- Sorted entries are determined by what their keys read. -/
theorem sorted_ext {fs gs : List (String × α)} (hfs : (fs.map Prod.fst).Pairwise (· < ·))
    (hgs : (gs.map Prod.fst).Pairwise (· < ·)) (h : ∀ k, fs.lookup k = gs.lookup k) : fs = gs := by
  induction fs generalizing gs with
  | nil =>
    cases gs with
    | nil => rfl
    | cons g gs =>
      obtain ⟨l,b⟩ := g
      have hkey := h l
      simp at hkey
  | cons f fs ih =>
    cases gs with
    | nil =>
      obtain ⟨l,b⟩ := f
      have hkey := h l
      simp at hkey
    | cons g gs =>
      obtain ⟨k,a⟩ := f
      obtain ⟨l,b⟩ := g
      simp only [List.map_cons,List.pairwise_cons] at hfs hgs
      have hmem : ∀ m, m ∈ k :: fs.map Prod.fst ↔ m ∈ l :: gs.map Prod.fst := by
        intro m
        rw [← List.map_cons (f := Prod.fst) (a := (k,a)),← List.map_cons (f := Prod.fst) (a := (l,b)),
          mem_keys_iff,mem_keys_iff,h m]
      have hkl : k = l := by
        rcases List.mem_cons.mp ((hmem k).mp (by simp)) with hk | hk
        · exact hk
        · rcases List.mem_cons.mp ((hmem l).mpr (by simp)) with hl | hl
          · exact hl.symm
          · exact absurd (String.lt_trans (hgs.1 k hk) (hfs.1 l hl)) (String.lt_irrefl l)
      subst hkl
      have hab := h k
      simp only [List.lookup_cons,beq_self_eq_true] at hab
      obtain rfl := Option.some.inj hab
      congr 1
      refine ih hfs.2 hgs.2 fun m => ?_
      by_cases hm : m = k
      · subst hm
        have hnone : ∀ (ts : List (String × α)), (∀ l ∈ ts.map Prod.fst, m < l) → ts.lookup m = none := by
          intro ts hts
          cases hlookup : ts.lookup m with
          | none => rfl
          | some x =>
            have hin : m ∈ ts.map Prod.fst := mem_keys_iff.mpr (by rw [hlookup]; rfl)
            exact absurd (hts m hin) (String.lt_irrefl m)
        rw [hnone fs hfs.1,hnone gs hgs.1]
      · have hread := h m
        simpa [List.lookup_cons,beq_eq_false_iff_ne.mpr hm] using hread

/-- The text of a map depends on what its keys read only. -/
theorem canonical_congr {fs gs : List (String × Json)} (h : ∀ k, fs.lookup k = gs.lookup k) :
    canonical lib (.obj fs) = canonical lib (.obj gs) := by
  have hsorted : sortKeys (canonicalFields lib fs) = sortKeys (canonicalFields lib gs) := by
    refine sorted_ext (sortKeys_sorted _) (sortKeys_sorted _) fun k => ?_
    rw [lookup_sortKeys,lookup_sortKeys,canonicalFields_eq,canonicalFields_eq,
      lookup_texts,lookup_texts,h k]
  simp only [canonical,hsorted]

/-! ## A hash given by a table -/

/-- The hash of a table of texts; other texts stand for their own. -/
def tableHash (table : List (String × String)) (text : String) : String :=
  (table.lookup text).getD ("x" ++ text)

theorem mem_of_lookup {table : List (String × α)} {s : String} {h : α}
    (hs : table.lookup s = some h) : (s,h) ∈ table := by
  induction table with
  | nil => cases hs
  | cons f table ih =>
    obtain ⟨k,v⟩ := f
    rw [List.lookup_cons] at hs
    split at hs
    · rename_i heq
      simp_all
    · exact List.mem_cons_of_mem _ (ih hs)

theorem tableHash_injective {table : List (String × String)} (hnodup : (table.map (·.2)).Nodup)
    (hmark : ∀ f ∈ table, f.2.toList.head? ≠ some 'x') : Function.Injective (tableHash table) := by
  have hinj : ∀ f ∈ table, ∀ g ∈ table, f.2 = g.2 → f = g :=
    fun f hf g hg => List.inj_on_of_nodup_map hnodup hf hg
  intro s t h
  unfold tableHash at h
  cases hs : table.lookup s with
  | none =>
    cases ht : table.lookup t with
    | none => simpa [hs,ht] using h
    | some b =>
      have hmem := hmark _ (mem_of_lookup ht)
      rw [hs,ht] at h
      simp [← show "x" ++ s = b from h] at hmem
  | some a =>
    cases ht : table.lookup t with
    | none =>
      have hmem := hmark _ (mem_of_lookup hs)
      rw [hs,ht] at h
      simp [show a = "x" ++ t from h] at hmem
    | some b =>
      rw [hs,ht] at h
      exact congrArg Prod.fst (hinj _ (mem_of_lookup hs) _ (mem_of_lookup ht) h)

/-- A library with the hash of a table, for values without floating point or instants. -/
def tableLibrary (table : List (String × String)) : Library where
  sha256 := tableHash table
  scientific := fun _ => (['0'],0)
  display := fun _ => ['0']
  zero := fun _ => true
  rfc3339 := fun _ => none
  millis := fun _ => none

theorem tableLibrary_spells (table : List (String × String)) : (tableLibrary table).Spells :=
  ⟨by simp [tableLibrary,numeral],by simp [tableLibrary,numeral]⟩

end Canonical
end CanixToolbelt
