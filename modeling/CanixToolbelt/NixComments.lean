import CanixToolbelt.Substrings

/-! The comments of a Nix text blanked in place: string literals are kept, and so is every byte's
offset. -/
namespace CanixToolbelt
namespace NixComments

/-- Where the scan stands: at code, in a `"` string, in an indented string, or in a comment. -/
inductive Region
  | code | string | indented | line | block
  deriving DecidableEq

/-- The bytes a scan writes: comments are blanked except for their line ends.  34 is the double
quote, 39 the single one, 92 the backslash, 35 the hash, 47 and 42 are slash and star. -/
def scan : Region → List UInt8 → List UInt8
  | _, [] => []
  | .code, 34::rest => 34 :: scan .string rest
  | .code, 39::39::rest => 39 :: 39 :: scan .indented rest
  | .code, 35::rest => 32 :: scan .line rest
  | .code, 47::42::rest => 32 :: 32 :: scan .block rest
  | .code, b::rest => b :: scan .code rest
  | .string, 34::rest => 34 :: scan .code rest
  | .string, 92::b::rest => 92 :: b :: scan .string rest
  | .string, b::rest => b :: scan .string rest
  -- two single quotes end an indented string unless the byte behind them makes them an escape
  | .indented, 39::39::b::rest =>
    if b = 36 ∨ b = 39 ∨ b = 92 then 39 :: 39 :: b :: scan .indented rest
    else 39 :: 39 :: scan .code (b::rest)
  | .indented, b::rest => b :: scan .indented rest
  | .line, 10::rest => 10 :: scan .code rest
  | .line, _::rest => 32 :: scan .line rest
  | .block, 42::47::rest => 32 :: 32 :: scan .code rest
  | .block, b::rest => (if b = 10 then 10 else 32) :: scan .block rest

/-- `mask_comments`: nothing where the bytes written are not UTF-8. -/
def maskComments (source : List Char) : Option (List Char) :=
  Utf8.decode (scan .code (Utf8.encode source))

/-! ## Character by character -/

/-- Where the scan stands between any two characters, inside its tokens as well. -/
inductive Phase
  | code | tick | string | escape | indented | first | second | line | opening | block | star
  deriving DecidableEq

/-- What a character at code leads to, and whether it is blanked. -/
def atCode (c : Char) (peek : Option Char) : Phase × Bool :=
  if c = '"' then (.string,false)
  else if c = '\'' then (.tick,false)
  else if c = '#' then (.line,true)
  else if c = '/' ∧ peek = some '*' then (.opening,true)
  else (.code,false)

def turn : Phase → Char → Option Char → Phase × Bool
  | .code, c, peek => atCode c peek
  | .tick, c, peek => if c = '\'' then (.indented,false) else atCode c peek
  | .string, c, _ => (if c = '"' then .code else if c = '\\' then .escape else .string,false)
  | .escape, _, _ => (.string,false)
  | .indented, c, _ => (if c = '\'' then .first else .indented,false)
  | .first, c, _ => (if c = '\'' then .second else .indented,false)
  | .second, c, peek =>
    if c = '$' ∨ c = '\'' ∨ c = '\\' then (.indented,false) else atCode c peek
  | .line, c, _ => if c = '\n' then (.code,false) else (.line,true)
  | .opening, _, _ => (.block,true)
  | .block, c, _ => (if c = '*' then .star else .block,true)
  | .star, c, _ => (if c = '/' then .code else if c = '*' then .star else .block,true)

/-- The characters of a text, each with whether it is blanked. -/
def marks : Phase → List Char → List (Char × Bool)
  | _, [] => []
  | p, c::cs => (c,(turn p c cs.head?).2) :: marks (turn p c cs.head?).1 cs

/-- What a mask shows of a character: a space for every byte of a blanked one. -/
def shown (e : Char × Bool) : List Char :=
  if e.2 ∧ e.1 ≠ '\n' then List.replicate e.1.utf8Size ' ' else [e.1]

def masked (es : List (Char × Bool)) : List Char := es.flatMap shown

/-- The raw text of marked characters. -/
def raw (es : List (Char × Bool)) : List Char := es.map Prod.fst

@[simp] theorem masked_nil : masked [] = [] := rfl
@[simp] theorem masked_cons (e : Char × Bool) (es : List (Char × Bool)) :
    masked (e::es) = shown e ++ masked es := rfl
@[simp] theorem masked_append (es fs : List (Char × Bool)) :
    masked (es ++ fs) = masked es ++ masked fs := List.flatMap_append
@[simp] theorem raw_nil : raw [] = [] := rfl
@[simp] theorem raw_cons (e : Char × Bool) (es : List (Char × Bool)) : raw (e::es) = e.1 :: raw es := rfl
@[simp] theorem raw_append (es fs : List (Char × Bool)) : raw (es ++ fs) = raw es ++ raw fs :=
  List.map_append

theorem raw_marks (p : Phase) (cs : List Char) : raw (marks p cs) = cs := by
  induction cs generalizing p with
  | nil => rfl
  | cons c cs ih => rw [marks,raw_cons,ih]

theorem size_shown (e : Char × Bool) : Substrings.size (shown e) = e.1.utf8Size := by
  have hspaces (n : ℕ) : Substrings.size (List.replicate n ' ') = n := by
    induction n with
    | zero => rfl
    | succ n ih => rw [List.replicate_succ,Substrings.size_cons,ih,show ' '.utf8Size = 1 from rfl]; omega
  unfold shown
  split
  · exact hspaces _
  · simp

theorem size_masked (es : List (Char × Bool)) :
    Substrings.size (masked es) = Substrings.size (raw es) := by
  induction es with
  | nil => rfl
  | cons e es ih => rw [masked_cons,raw_cons,Substrings.size_append,Substrings.size_cons,size_shown,ih]

/-! What is pending matters only where the next character takes it up. -/

theorem marks_tick {cs : List Char} (h : cs.head? ≠ some '\'') : marks .tick cs = marks .code cs := by
  cases cs with
  | nil => rfl
  | cons c cs =>
    have hc : c ≠ '\'' := by simpa using h
    simp only [marks,turn,if_neg hc]

theorem marks_first {cs : List Char} (h : cs.head? ≠ some '\'') :
    marks .first cs = marks .indented cs := by
  cases cs with
  | nil => rfl
  | cons c cs =>
    have hc : c ≠ '\'' := by simpa using h
    simp only [marks,turn,if_neg hc]

theorem marks_second {cs : List Char} (h : ∀ c ∈ cs.head?, ¬ (c = '$' ∨ c = '\'' ∨ c = '\\')) :
    marks .second cs = marks .code cs := by
  cases cs with
  | nil => rfl
  | cons c cs => simp only [marks,turn,if_neg (h c rfl)]

theorem marks_star {cs : List Char} (h : cs.head? ≠ some '/') : marks .star cs = marks .block cs := by
  cases cs with
  | nil => rfl
  | cons c cs =>
    have hc : c ≠ '/' := by simpa using h
    simp only [marks,turn,if_neg hc]

/-! ## The bytes written are the marked text -/

def Region.phase : Region → Phase
  | .code => .code
  | .string => .string
  | .indented => .indented
  | .line => .line
  | .block => .block

/-- Whether what stands in a region is blanked. -/
def Region.comment : Region → Bool
  | .line | .block => true
  | _ => false

/-- The bytes that do more in a region than stand there. -/
def Region.active : Region → List UInt8
  | .code => [34,39,35,47]
  | .string => [34,92]
  | .indented => [39]
  | .line => [10]
  | .block => [42,10]

def Region.inert (r : Region) (c : Char) : Prop := ∀ b ∈ r.active, c ≠ Char.ofNat b.toNat

theorem scan_inert {r : Region} {b : UInt8} (hb : b ∉ r.active) (x : List UInt8) :
    scan r (b::x) = (if r.comment then 32 else b) :: scan r x := by
  cases r with
  | code =>
    simp only [Region.active,List.mem_cons,List.not_mem_nil,or_false,not_or] at hb
    rw [scan]
    · rfl
    · exact fun h => hb.1 h
    · exact fun _ h => (hb.2.1 h).elim
    · exact fun h => hb.2.2.1 h
    · exact fun _ h => (hb.2.2.2 h).elim
  | string =>
    simp only [Region.active,List.mem_cons,List.not_mem_nil,or_false,not_or] at hb
    rw [scan]
    · rfl
    · exact fun h => hb.1 h
    · exact fun _ _ h => (hb.2 h).elim
  | indented =>
    simp only [Region.active,List.mem_cons,List.not_mem_nil,or_false] at hb
    rw [scan]
    · rfl
    · exact fun _ _ h => (hb h).elim
  | line =>
    simp only [Region.active,List.mem_cons,List.not_mem_nil,or_false] at hb
    rw [scan]
    · rfl
    · exact hb
  | block =>
    simp only [Region.active,List.mem_cons,List.not_mem_nil,or_false,not_or] at hb
    rw [scan]
    · rw [if_neg hb.2]
      rfl
    · exact fun _ h => (hb.1 h).elim

example : scan .code [97,35,98,10,99] = [97,32,32,10,99] := by decide +kernel

theorem scan_inert_append {r : Region} {bs : List UInt8} (hbs : ∀ b ∈ bs, b ∉ r.active)
    (x : List UInt8) :
    scan r (bs ++ x) = (if r.comment then List.replicate bs.length 32 else bs) ++ scan r x := by
  induction bs with
  | nil => cases r.comment <;> rfl
  | cons b bs ih =>
    rw [List.cons_append,scan_inert (hbs b List.mem_cons_self),
      ih fun b hb => hbs b (List.mem_cons_of_mem _ hb)]
    cases r.comment <;> rfl

theorem Region.active_ascii (r : Region) : ∀ b ∈ r.active, b.toNat < 128 := by
  have hall : r.active.all (fun b => b.toNat < 128) = true := by cases r <;> rfl
  exact fun b hb => of_decide_eq_true (List.all_eq_true.mp hall b hb)

theorem Region.inert.bytes {r : Region} {c : Char} (h : r.inert c) :
    ∀ b ∈ String.utf8EncodeChar c, b ∉ r.active := by
  intro b hb hactive
  have hc := (Utf8.ascii_of_mem hb (r.active_ascii b hactive)).2
  exact h b hactive (by rw [← hc,Char.ofNat_toNat])

theorem Region.inert.turn {r : Region} {c : Char} (h : r.inert c) (peek : Option Char) :
    turn r.phase c peek = (r.phase,r.comment) := by
  cases r with
  | code =>
    have hquote : c ≠ '"' := h 34 (by decide)
    have htick : c ≠ '\'' := h 39 (by decide)
    have hhash : c ≠ '#' := h 35 (by decide)
    have hslash : c ≠ '/' := h 47 (by decide)
    simp [NixComments.turn,Region.phase,Region.comment,atCode,hquote,htick,hhash,hslash]
  | string =>
    have hquote : c ≠ '"' := h 34 (by decide)
    have hback : c ≠ '\\' := h 92 (by decide)
    simp [NixComments.turn,Region.phase,Region.comment,hquote,hback]
  | indented =>
    have htick : c ≠ '\'' := h 39 (by decide)
    simp [NixComments.turn,Region.phase,Region.comment,htick]
  | line =>
    have hnew : c ≠ '\n' := h 10 (by decide)
    simp [NixComments.turn,Region.phase,Region.comment,hnew]
  | block =>
    have hstar : c ≠ '*' := h 42 (by decide)
    simp [NixComments.turn,Region.phase,Region.comment,hstar]

theorem encode_shown (c : Char) (b : Bool) : Utf8.encode (shown (c,b)) =
    if b ∧ c ≠ '\n' then List.replicate c.utf8Size 32 else String.utf8EncodeChar c := by
  have hspaces (n : ℕ) : Utf8.encode (List.replicate n ' ') = List.replicate n 32 := by
    induction n with
    | zero => rfl
    | succ n ih => rw [List.replicate_succ,List.replicate_succ,Utf8.encode_cons,ih]; rfl
  unfold shown
  split
  · exact hspaces _
  · simp [Utf8.encode]

/-- A region at a text, and what it writes. -/
def Written (r : Region) (cs : List Char) : Prop :=
  scan r (Utf8.encode cs) = Utf8.encode (masked (marks r.phase cs))

theorem Written.inert {r : Region} {c : Char} {cs : List Char} (hc : r.inert c)
    (h : Written r cs) : Written r (c::cs) := by
  unfold Written at h ⊢
  rw [Utf8.encode_cons,scan_inert_append hc.bytes,marks,hc.turn,masked_cons,Utf8.encode_append,
    encode_shown,h,String.length_utf8EncodeChar]
  congr 1
  cases r with
  | line => simp [Region.comment,show c ≠ '\n' from hc 10 (by decide)]
  | block => simp [Region.comment,show c ≠ '\n' from hc 10 (by decide)]
  | code => rfl
  | string => rfl
  | indented => rfl

theorem encode_head {cs : List Char} {x : UInt8} (hx : x.toNat < 128)
    (h : (Utf8.encode cs).head? = some x) : ∃ ds, cs = Char.ofNat x.toNat :: ds := by
  cases cs with
  | nil => cases h
  | cons c cs =>
    have hc := @Utf8.head_ascii c cs _ hx fun y hy => by
      rw [h] at hy
      exact (Option.some.inj hy).symm
    exact ⟨cs,by rw [hc]⟩

/-- Code: a quote opens a string, two single quotes an indented one, a hash or a slash with a star
a comment. -/
theorem written_code {cs : List Char} (h : ∀ r ds, ds.length ≤ cs.length → Written r ds)
    {b : UInt8} (hb : b ∈ Region.active .code) : Written .code (Char.ofNat b.toNat :: cs) := by
  have hafter : ∀ r, Written r cs := fun r => h r cs le_rfl
  have hcode : scan .code (Utf8.encode cs) = Utf8.encode (masked (marks .code cs)) := hafter .code
  simp only [Region.active,List.mem_cons,List.not_mem_nil,or_false] at hb
  rcases hb with rfl | rfl | rfl | rfl
  · change scan .code (34 :: Utf8.encode cs) = 34 :: Utf8.encode (masked (marks .string cs))
    rw [scan,hafter .string]
    rfl
  · by_cases htick : cs.head? = some '\''
    · obtain ⟨ds,rfl⟩ := List.head?_eq_some_iff.mp htick
      change scan .code (39 :: 39 :: Utf8.encode ds) =
        39 :: 39 :: Utf8.encode (masked (marks .indented ds))
      rw [scan,h .indented ds (by simp)]
      rfl
    · change scan .code (39 :: Utf8.encode cs) = 39 :: Utf8.encode (masked (marks .tick cs))
      rw [marks_tick htick,← hcode,scan]
      · decide
      · rintro rest - hrest
        obtain ⟨ds,rfl⟩ := encode_head (x := 39) (by decide) (by rw [hrest]; rfl)
        exact htick rfl
      · decide
      · exact fun _ hno => absurd hno (by decide)
  · change scan .code (35 :: Utf8.encode cs) = 32 :: Utf8.encode (masked (marks .line cs))
    rw [scan,hafter .line]
    rfl
  · by_cases hstar : cs.head? = some '*'
    · obtain ⟨ds,rfl⟩ := List.head?_eq_some_iff.mp hstar
      change scan .code (47 :: 42 :: Utf8.encode ds) =
        32 :: 32 :: Utf8.encode (masked (marks .block ds))
      rw [scan,h .block ds (by simp)]
      rfl
    · have hturn : turn .code '/' cs.head? = (.code,false) := by
        simp [turn,atCode,hstar]
      change scan .code (47 :: Utf8.encode cs) =
        Utf8.encode (masked (('/',(turn .code '/' cs.head?).2) :: marks (turn .code '/' cs.head?).1 cs))
      rw [hturn]
      change _ = 47 :: Utf8.encode (masked (marks .code cs))
      rw [← hcode,scan]
      · decide
      · exact fun _ hno => absurd hno (by decide)
      · decide
      · rintro rest - hrest
        obtain ⟨ds,rfl⟩ := encode_head (x := 42) (by decide) (by rw [hrest]; rfl)
        exact hstar rfl

/-- The bytes behind a character's first are above 127. -/
theorem tail_bytes {c : Char} {b : UInt8} {bs : List UInt8} (h : String.utf8EncodeChar c = b::bs) :
    ∀ x ∈ bs, ¬ x.toNat < 128 := by
  intro x hx hlt
  have hone := (Utf8.ascii_of_mem (c := c) (b := x) (by rw [h]; exact List.mem_cons_of_mem _ hx) hlt).1
  rw [h] at hone
  obtain ⟨-,rfl⟩ := List.cons.inj hone
  cases hx

/-- A string: a quote closes it, and a backslash takes the next character along. -/
theorem written_string {cs : List Char} (h : ∀ r ds, ds.length ≤ cs.length → Written r ds)
    {b : UInt8} (hb : b ∈ Region.active .string) : Written .string (Char.ofNat b.toNat :: cs) := by
  simp only [Region.active,List.mem_cons,List.not_mem_nil,or_false] at hb
  rcases hb with rfl | rfl
  · change scan .string (34 :: Utf8.encode cs) = 34 :: Utf8.encode (masked (marks .code cs))
    rw [scan,h .code cs le_rfl]
    rfl
  · cases cs with
    | nil => rfl
    | cons d ds =>
      obtain ⟨x,xs,hd⟩ := List.exists_cons_of_ne_nil (Utf8.encodeChar_ne_nil d)
      have hrest : scan .string (Utf8.encode ds) = Utf8.encode (masked (marks .string ds)) :=
        h .string ds (by simp)
      have hinert : ∀ y ∈ xs, y ∉ Region.active .string := fun y hy hactive =>
        tail_bytes hd y hy (Region.active_ascii _ y hactive)
      change scan .string (92 :: Utf8.encode (d::ds)) =
        92 :: Utf8.encode (d :: masked (marks .string ds))
      rw [Utf8.encode_cons,Utf8.encode_cons,hd,List.cons_append,scan,scan_inert_append hinert,hrest]
      rfl

/-- An indented string: two single quotes close it, unless what follows makes them an escape. -/
theorem written_indented {cs : List Char} (h : ∀ r ds, ds.length ≤ cs.length → Written r ds)
    {b : UInt8} (hb : b ∈ Region.active .indented) :
    Written .indented (Char.ofNat b.toNat :: cs) := by
  obtain rfl : b = 39 := by simpa [Region.active] using hb
  by_cases htick : cs.head? = some '\''
  · obtain ⟨ds,rfl⟩ := List.head?_eq_some_iff.mp htick
    cases ds with
    | nil => rfl
    | cons e es =>
      change scan .indented (39 :: 39 :: Utf8.encode (e::es)) =
        39 :: 39 :: Utf8.encode (masked (marks .second (e::es)))
      obtain ⟨x,xs,he⟩ := List.exists_cons_of_ne_nil (Utf8.encodeChar_ne_nil e)
      have hbytes : Utf8.encode (e::es) = x :: (xs ++ Utf8.encode es) := by
        rw [Utf8.encode_cons,he,List.cons_append]
      by_cases hescape : e = '$' ∨ e = '\'' ∨ e = '\\'
      · have hrest : scan .indented (Utf8.encode es) = Utf8.encode (masked (marks .indented es)) :=
          h .indented es (by simp; omega)
        rcases hescape with rfl | rfl | rfl
        all_goals
          change scan .indented (39 :: 39 :: _ :: Utf8.encode es) =
            39 :: 39 :: _ :: Utf8.encode (masked (marks .indented es))
          rw [scan,if_pos (by decide),hrest]
      · have hcode : scan .code (Utf8.encode (e::es)) = Utf8.encode (masked (marks .code (e::es))) :=
          h .code (e::es) (by simp)
        have hx : ¬ (x = 36 ∨ x = 39 ∨ x = 92) := by
          intro hx
          have hlt : x.toNat < 128 := by rcases hx with rfl | rfl | rfl <;> decide
          have heq := @Utf8.head_ascii e es _ hlt fun y hy => by
            rw [hbytes] at hy
            exact (Option.some.inj hy).symm
          rcases hx with rfl | rfl | rfl
          · exact hescape (.inl heq)
          · exact hescape (.inr (.inl heq))
          · exact hescape (.inr (.inr heq))
        have hsecond : ∀ y ∈ (e::es).head?, ¬ (y = '$' ∨ y = '\'' ∨ y = '\\') := by
          intro y hy
          obtain rfl : e = y := by simpa using hy
          exact hescape
        rw [marks_second hsecond,hbytes,scan,if_neg hx,← hbytes,hcode]
  · change scan .indented (39 :: Utf8.encode cs) = 39 :: Utf8.encode (masked (marks .first cs))
    have hrest : scan .indented (Utf8.encode cs) = Utf8.encode (masked (marks .indented cs)) :=
      h .indented cs le_rfl
    rw [marks_first htick,← hrest,scan]
    rintro x rest - hrest
    obtain ⟨ds,rfl⟩ := encode_head (x := 39) (by decide) (by rw [hrest]; rfl)
    exact htick rfl

/-- A block comment: a star with a slash closes it, and its line ends stay. -/
theorem written_block {cs : List Char} (h : ∀ r ds, ds.length ≤ cs.length → Written r ds)
    {b : UInt8} (hb : b ∈ Region.active .block) : Written .block (Char.ofNat b.toNat :: cs) := by
  have hrest : scan .block (Utf8.encode cs) = Utf8.encode (masked (marks .block cs)) :=
    h .block cs le_rfl
  simp only [Region.active,List.mem_cons,List.not_mem_nil,or_false] at hb
  rcases hb with rfl | rfl
  · by_cases hslash : cs.head? = some '/'
    · obtain ⟨ds,rfl⟩ := List.head?_eq_some_iff.mp hslash
      change scan .block (42 :: 47 :: Utf8.encode ds) =
        32 :: 32 :: Utf8.encode (masked (marks .code ds))
      rw [scan,h .code ds (by simp)]
      rfl
    · change scan .block (42 :: Utf8.encode cs) = 32 :: Utf8.encode (masked (marks .star cs))
      rw [marks_star hslash,← hrest,scan]
      · rfl
      · rintro rest - hrest
        obtain ⟨ds,rfl⟩ := encode_head (x := 47) (by decide) (by rw [hrest]; rfl)
        exact hslash rfl
  · change scan .block (10 :: Utf8.encode cs) = 10 :: Utf8.encode (masked (marks .block cs))
    rw [← hrest,scan]
    · rfl
    · exact fun _ hno => absurd hno (by decide)

theorem written (r : Region) (cs : List Char) : Written r cs := by
  induction hn : cs.length using Nat.strong_induction_on generalizing r cs with
  | _ n ih =>
    cases cs with
    | nil => cases r <;> rfl
    | cons c cs =>
      have hrest : ∀ r ds, ds.length ≤ cs.length → Written r ds := fun r ds hle =>
        ih ds.length (by rw [← hn,List.length_cons]; omega) r ds rfl
      by_cases hc : r.inert c
      · exact .inert hc (hrest r cs le_rfl)
      · unfold Region.inert at hc
        push Not at hc
        obtain ⟨b,hb,rfl⟩ := hc
        cases r with
        | code => exact written_code hrest hb
        | string => exact written_string hrest hb
        | indented => exact written_indented hrest hb
        | block => exact written_block hrest hb
        | line =>
          obtain rfl : b = 10 := by simpa [Region.active] using hb
          change scan .line (10 :: Utf8.encode cs) = 10 :: Utf8.encode (masked (marks .code cs))
          rw [scan,hrest .code cs le_rfl]
          rfl

/-- The bytes written are UTF-8: those of the marked text. -/
theorem maskComments_eq (source : List Char) :
    maskComments source = some (masked (marks .code source)) := by
  unfold maskComments
  rw [written .code source]
  exact Utf8.decode_encode _

/-! ## What a mask keeps -/

/-- Where the scan of a mask stands: comments have become blanks at code. -/
def Phase.shows : Phase → Phase
  | .line | .opening | .block | .star => .code
  | p => p

theorem turn_kept {p p' : Phase} {c : Char} {peek peek' : Option Char}
    (h : turn p c peek = (p',false)) (hpeek : peek' = some '*' → peek = some '*') :
    turn p.shows c peek' = (p',false) ∧ p'.shows = p' := by
  have hcode : ∀ q, atCode c peek = (q,false) → atCode c peek' = (q,false) ∧ q.shows = q := by
    intro q hq
    unfold atCode at hq ⊢
    split_ifs at hq with hquote htick hhash hslash
    · exact ⟨by rw [if_pos hquote,hq],by obtain ⟨rfl,-⟩ := Prod.mk.inj hq; rfl⟩
    · exact ⟨by rw [if_neg hquote,if_pos htick,hq],by obtain ⟨rfl,-⟩ := Prod.mk.inj hq; rfl⟩
    · cases (Prod.mk.inj hq).2
    · cases (Prod.mk.inj hq).2
    · have hno : ¬ (c = '/' ∧ peek' = some '*') := fun ⟨hc,hstar⟩ => hslash ⟨hc,hpeek hstar⟩
      exact ⟨by rw [if_neg hquote,if_neg htick,if_neg hhash,if_neg hno,hq],
        by obtain ⟨rfl,-⟩ := Prod.mk.inj hq; rfl⟩
  cases p with
  | code => exact hcode p' h
  | tick =>
    simp only [turn,Phase.shows] at h ⊢
    split_ifs at h ⊢
    · exact ⟨h,by obtain ⟨rfl,-⟩ := Prod.mk.inj h; rfl⟩
    · exact hcode p' h
  | second =>
    simp only [turn,Phase.shows] at h ⊢
    split_ifs at h ⊢
    · exact ⟨h,by obtain ⟨rfl,-⟩ := Prod.mk.inj h; rfl⟩
    · exact hcode p' h
  | string =>
    refine ⟨h,?_⟩
    simp only [turn] at h
    obtain ⟨rfl,-⟩ := Prod.mk.inj h
    split_ifs <;> rfl
  | escape => exact ⟨h,by obtain ⟨rfl,-⟩ := Prod.mk.inj h; rfl⟩
  | indented =>
    refine ⟨h,?_⟩
    simp only [turn] at h
    obtain ⟨rfl,-⟩ := Prod.mk.inj h
    split_ifs <;> rfl
  | first =>
    refine ⟨h,?_⟩
    simp only [turn] at h
    obtain ⟨rfl,-⟩ := Prod.mk.inj h
    split_ifs <;> rfl
  | line =>
    simp only [turn] at h
    split_ifs at h with hnew
    · obtain ⟨rfl,-⟩ := Prod.mk.inj h
      subst hnew
      exact ⟨rfl,rfl⟩
    · cases (Prod.mk.inj h).2
  | opening => cases (Prod.mk.inj h).2
  | block => cases (Prod.mk.inj h).2
  | star => cases (Prod.mk.inj h).2

/-- Only comments and what opens them are blanked. -/
theorem turn_blanked {p p' : Phase} {c : Char} {peek : Option Char} (h : turn p c peek = (p',true)) :
    p'.shows = .code ∧ ∀ d peek', (d = ' ' ∨ d = '\n') → turn p.shows d peek' = (.code,false) := by
  have hatcode : ∀ d peek', (d = ' ' ∨ d = '\n') → atCode d peek' = (.code,false) := by
    rintro d peek' (rfl | rfl) <;> simp [atCode]
  have hcode : ∀ q, atCode c peek = (q,true) → q.shows = .code := by
    intro q hq
    unfold atCode at hq
    split_ifs at hq <;> first | (obtain ⟨rfl,-⟩ := Prod.mk.inj hq; rfl) | cases (Prod.mk.inj hq).2
  cases p with
  | code => exact ⟨hcode p' h,hatcode⟩
  | tick =>
    refine ⟨?_,fun d peek' hd => ?_⟩
    · simp only [turn] at h
      split_ifs at h
      · cases (Prod.mk.inj h).2
      · exact hcode p' h
    · have hne : d ≠ '\'' := by rcases hd with rfl | rfl <;> decide
      simp only [Phase.shows,turn,if_neg hne]
      exact hatcode d peek' hd
  | second =>
    refine ⟨?_,fun d peek' hd => ?_⟩
    · simp only [turn] at h
      split_ifs at h
      · cases (Prod.mk.inj h).2
      · exact hcode p' h
    · have hne : ¬ (d = '$' ∨ d = '\'' ∨ d = '\\') := by rcases hd with rfl | rfl <;> decide
      simp only [Phase.shows,turn,if_neg hne]
      exact hatcode d peek' hd
  | string => cases (Prod.mk.inj h).2
  | escape => cases (Prod.mk.inj h).2
  | indented => cases (Prod.mk.inj h).2
  | first => cases (Prod.mk.inj h).2
  | line =>
    refine ⟨?_,hatcode⟩
    simp only [turn] at h
    split_ifs at h
    · cases (Prod.mk.inj h).2
    · obtain ⟨rfl,-⟩ := Prod.mk.inj h
      rfl
  | opening => exact ⟨by obtain ⟨rfl,-⟩ := Prod.mk.inj h; rfl,hatcode⟩
  | block =>
    refine ⟨?_,hatcode⟩
    simp only [turn] at h
    obtain ⟨rfl,-⟩ := Prod.mk.inj h
    split_ifs <;> rfl
  | star =>
    refine ⟨?_,hatcode⟩
    simp only [turn] at h
    obtain ⟨rfl,-⟩ := Prod.mk.inj h
    split_ifs <;> rfl

/-- A mask shows blanks and characters of the text. -/
theorem shown_blanked (c : Char) : ∃ x xs, shown (c,true) = x::xs ∧
    ∀ y ∈ x::xs, y = ' ' ∨ y = '\n' := by
  by_cases hc : c = '\n'
  · exact ⟨'\n',[],by simp [shown,hc],by simp⟩
  · obtain ⟨n,hn⟩ := Nat.exists_eq_add_of_le' c.utf8Size_pos
    refine ⟨' ',List.replicate n ' ',?_,?_⟩
    · rw [shown,if_pos ⟨rfl,hc⟩]
      simp only [hn]
      rfl
    · intro y hy
      rw [← List.replicate_succ] at hy
      exact .inl (List.eq_of_mem_replicate hy)

theorem shown_kept (c : Char) : shown (c,false) = [c] := by simp [shown]

theorem masked_head {es : List (Char × Bool)} {d : Char} (hspace : d ≠ ' ')
    (h : (masked es).head? = some d) : (raw es).head? = some d := by
  cases es with
  | nil => cases h
  | cons e es =>
    obtain ⟨c,b⟩ := e
    rw [masked_cons] at h
    by_cases hblank : (c,b).2 ∧ (c,b).1 ≠ '\n'
    · obtain ⟨n,hn⟩ := Nat.exists_eq_add_of_le' c.utf8Size_pos
      rw [shown,if_pos hblank,show (c,b).1.utf8Size = n+1 from hn] at h
      exact absurd (Option.some.inj h).symm hspace
    · rw [shown,if_neg hblank] at h
      exact h

/-- Blanks at code stay as they are. -/
theorem masked_blanks {q : Phase}
    (hq : ∀ d peek, (d = ' ' ∨ d = '\n') → turn q d peek = (.code,false)) {x : Char}
    {xs : List Char} (hxs : ∀ y ∈ x::xs, y = ' ' ∨ y = '\n') (cs : List Char) :
    masked (marks q (x::xs ++ cs)) = x::xs ++ masked (marks .code cs) := by
  induction xs generalizing q x with
  | nil =>
    rw [List.cons_append,marks,hq x _ (hxs x (by simp)),masked_cons,shown_kept]
    rfl
  | cons y ys ih =>
    rw [List.cons_append,marks,hq x _ (hxs x (by simp)),masked_cons,shown_kept,
      ih (fun d peek hd => by rcases hd with rfl | rfl <;> simp [turn,atCode])
        fun z hz => hxs z (List.mem_cons_of_mem _ hz)]
    rfl

theorem masked_again (p : Phase) (cs : List Char) :
    masked (marks p.shows (masked (marks p cs))) = masked (marks p cs) := by
  induction cs generalizing p with
  | nil => rfl
  | cons c cs ih =>
    obtain ⟨⟨p',b⟩,hturn⟩ : ∃ t, turn p c cs.head? = t := ⟨_,rfl⟩
    have hrest := ih p'
    rw [marks,hturn,masked_cons]
    cases b with
    | false =>
      have hpeek : (masked (marks p' cs)).head? = some '*' → cs.head? = some '*' := fun h => by
        have hhead := masked_head (by decide) h
        rwa [raw_marks] at hhead
      obtain ⟨hagain,hshows⟩ := turn_kept hturn hpeek
      rw [hshows] at hrest
      rw [shown_kept,List.singleton_append,marks,hagain,masked_cons,shown_kept,hrest]
      rfl
    | true =>
      obtain ⟨hshows,hblank⟩ := turn_blanked hturn
      obtain ⟨x,xs,hx,hxs⟩ := shown_blanked c
      rw [hshows] at hrest
      rw [hx,masked_blanks hblank hxs,hrest]

/-- The line ends of a text, byte for byte. -/
def lineEnds (cs : List Char) : List Bool := (Utf8.encode cs).map (· == 10)

theorem lineEnds_masked (es : List (Char × Bool)) : lineEnds (masked es) = lineEnds (raw es) := by
  induction es with
  | nil => rfl
  | cons e es ih =>
    obtain ⟨c,b⟩ := e
    unfold lineEnds at ih ⊢
    rw [masked_cons,raw_cons,Utf8.encode_append,Utf8.encode_cons,List.map_append,List.map_append,ih,
      encode_shown]
    split
    · rename_i h
      have hbytes : ∀ b ∈ String.utf8EncodeChar c, (b == 10) = false := by
        intro b hb
        refine beq_eq_false_iff_ne.mpr fun hten => ?_
        subst hten
        have hc := (Utf8.ascii_of_mem hb (by decide)).2
        exact h.2 (by rw [← Char.ofNat_toNat c,hc]; rfl)
      have hmap : (String.utf8EncodeChar c).map (· == 10) = List.replicate c.utf8Size false := by
        rw [List.map_congr_left hbytes,List.map_const',String.length_utf8EncodeChar]
      rw [hmap,List.map_replicate]
      rfl
    · rfl

/-- Masking keeps the length, the line ends and the UTF-8 of every text, and masks it for good. -/
theorem maskComments_keeps (source : List Char) : ∃ out, maskComments source = some out ∧
    Substrings.size out = Substrings.size source ∧ lineEnds out = lineEnds source ∧
    maskComments out = some out := by
  refine ⟨_,maskComments_eq source,?_,?_,?_⟩
  · rw [size_masked,raw_marks]
  · rw [lineEnds_masked,raw_marks]
  · rw [maskComments_eq]
    exact congrArg some (masked_again .code source)

end NixComments
end CanixToolbelt
