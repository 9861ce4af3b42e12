import Mathlib.Data.Finmap
import CanixToolbelt.Delimited
import CanixToolbelt.Fallible
import CanixToolbelt.Operator
import CanixToolbelt.Text
import CanixToolbelt.Utf8

/-! The mount table of an offline worker, as the kernel renders it and as it is observed. -/
namespace CanixToolbelt
namespace Mounts
open Fallible Text

def octal (b : UInt8) : Bool := 48 ≤ b.toNat && b.toNat ≤ 55

/-- The path that a field spells with octal escapes. -/
def unescape : List UInt8 → Except String (List UInt8)
  | [] => .ok []
  | b::bytes =>
    if b = 92 then
      match bytes with
      | x::y::z::rest =>
        let value := (x.toNat - 48) * 64 + (y.toNat - 48) * 8 + (z.toNat - 48)
        if !(octal x && octal y && octal z) then .error "invalid mountinfo escape"
        else if 255 < value ∨ value = 0 then .error "invalid mountinfo path byte"
        else (unescape rest).map (UInt8.ofNat value :: ·)
      | _ => .error "invalid mountinfo escape"
    else (unescape bytes).map (b :: ·)

def mountPath (value : List Char) : Except String (List Char) := do
  let bytes ← unescape (Utf8.encode value)
  match Utf8.decode bytes with
  | none => .error "non-UTF8 mountinfo path"
  | some path => .ok path

/-- A file system type and the options of a mount. -/
abbrev Kind := List Char × Finset (List Char)

abbrev Entry := Σ _ : List Char, Kind

abbrev Observed := Finmap fun _ : List Char => Kind

def addMount (result : Observed) (line : List Char) : Except String Observed :=
  match Delimited.before " - ".toList line with
  | none => .error "invalid mountinfo record"
  | some before =>
    match splitWhitespace before,splitWhitespace (line.drop (before.length + 3)) with
    | _::_::_::_::point::options::_,[fsType,_,_] => do
      let point ← mountPath point
      if point ∈ result then .error "duplicate mountpoint hides worker authority"
      else .ok (result.insert point (fsType,(options.splitOn ',').toFinset))
    | _,_ => .error "incomplete mountinfo record"

def mounts (text : List Char) : Except String Observed :=
  (Operator.lines text).foldlM addMount ∅

/-! ## What the kernel renders -/

def escaped : List Char := [' ','\t','\n','\\','#']

def escape (c : Char) : List Char :=
  if c ∈ escaped then
    '\\' :: [c.toNat / 64,c.toNat / 8 % 8,c.toNat % 8].map fun d => Char.ofNat (48 + d)
  else [c]

def render (cs : List Char) : List Char := cs.flatMap escape

def plain (c : Char) : Bool := c.isAlphanum || c = ':' || c = '_'

/-- The kernel's own words: numbers, options and tags. -/
def Word (cs : List Char) : Prop := cs ≠ [] ∧ cs.all plain

structure Mount where
  id : List Char
  parent : List Char
  device : List Char
  root : List Char
  point : List Char
  options : List (List Char)
  optional : List (List Char)
  fsType : List Char
  source : List Char
  superOptions : List Char
  numbered : Word id ∧ Word parent ∧ Word device
  absolute : point.head? = some '/'
  worded : options ≠ [] ∧ ∀ o ∈ options, Word o
  tagged : ∀ o ∈ optional, Word o

namespace Mount

def optionText (m : Mount) : List Char := [','].intercalate m.options

/-- The fields in front of the separator, but for the first. -/
def fields (m : Mount) : List (List Char) :=
  m.parent :: m.device :: render m.root :: render m.point :: m.optionText :: m.optional

def line (m : Mount) : List Char :=
  m.id ++ (m.fields.flatMap (' ' :: ·) ++ (" - ".toList ++
    (render m.fsType ++ ' ' :: (render m.source ++ ' ' :: render m.superOptions))))

/-- What the table has to say of a mount. -/
def meant (m : Mount) : Entry := ⟨m.point,m.fsType,m.options.toFinset⟩

end Mount

def table (ms : List Mount) : List Char := ms.flatMap fun m => m.line ++ ['\n']

/-! ## Words at white space that is not escaped -/

def bare (c : Char) : Bool := Review.whitespace c && c ∉ escaped

def bareWords (cs : List Char) : List (List Char) := (cs.splitOnP bare).filter (· ≠ [])

@[simp] theorem render_nil : render [] = [] := rfl

theorem render_cons (c : Char) (cs : List Char) : render (c::cs) = escape c ++ render cs := by
  simp [render]

/-- An escaped character is a backslash and three digits; any other stands for itself. -/
theorem escape_cases (c : Char) : (c ∉ escaped ∧ escape c = [c]) ∨
    ∃ x y z, c ∈ escaped ∧ escape c = ['\\',x,y,z] ∧ x.isDigit ∧ y.isDigit ∧ z.isDigit := by
  by_cases h : c ∈ escaped
  · refine .inr ?_
    simp only [escaped,List.mem_cons,List.not_mem_nil,or_false] at h
    rcases h with rfl | rfl | rfl | rfl | rfl <;> exact ⟨_,_,_,by simp [escaped],rfl,rfl,rfl,rfl⟩
  · exact .inl ⟨h,if_neg h⟩

theorem digit_word {c : Char} (h : c.isDigit) : Review.whitespace c = false ∧ c ∉ escaped := by
  obtain ⟨hlow,hhigh⟩ := Json.digit_bounds h
  constructor
  · by_contra hspace
    rw [Bool.not_eq_false] at hspace
    simp only [Review.whitespace,Bool.or_eq_true,Bool.and_eq_true,decide_eq_true_eq,List.mem_cons,
      List.not_mem_nil,or_false] at hspace
    omega
  · intro hin
    simp only [escaped,List.mem_cons,List.not_mem_nil,or_false] at hin
    rcases hin with rfl | rfl | rfl | rfl | rfl <;> revert hlow hhigh <;> decide

theorem escape_ne_nil (c : Char) : escape c ≠ [] := by
  rcases escape_cases c with ⟨-,h⟩ | ⟨x,y,z,-,h,-⟩ <;> rw [h] <;> exact List.cons_ne_nil _ _

theorem render_eq_nil {cs : List Char} : render cs = [] ↔ cs = [] := by
  cases cs with
  | nil => simp
  | cons c cs => simp [render_cons,escape_ne_nil]

/-- Nothing that is escaped stands in a field, but for the backslash of an escape. -/
theorem mem_render {cs : List Char} {c : Char} (h : c ∈ render cs) : c ∉ escaped ∨ c = '\\' := by
  obtain ⟨d,-,hd⟩ := List.mem_flatMap.mp h
  rcases escape_cases d with ⟨hout,he⟩ | ⟨x,y,z,-,he,hx,hy,hz⟩
  · rw [he] at hd
    exact .inl (List.mem_singleton.mp hd ▸ hout)
  · rw [he] at hd
    simp only [List.mem_cons,List.not_mem_nil,or_false] at hd
    rcases hd with rfl | rfl | rfl | rfl
    · exact .inr rfl
    · exact .inl (digit_word hx).2
    · exact .inl (digit_word hy).2
    · exact .inl (digit_word hz).2

theorem render_free {cs : List Char} {c : Char} (h : c ∈ escaped) (hc : c ≠ '\\') :
    c ∉ render cs := fun hin => (mem_render hin).elim (fun hout => hout h) hc

/-- A rendered text falls into words where the text has bare white space. -/
theorem splitOnP_render (cs : List Char) :
    (render cs).splitOnP Review.whitespace = (cs.splitOnP bare).map render := by
  have hhead (ds : List (List Char)) (c : Char) : (ds.modifyHead (c :: ·)).map render =
      (ds.map render).modifyHead (escape c ++ ·) := by
    cases ds <;> simp [render_cons]
  have hback : Review.whitespace '\\' = false := rfl
  induction cs with
  | nil => rfl
  | cons c cs ih =>
    rw [render_cons,List.splitOnP_cons_eq_if_modifyHead]
    rcases escape_cases c with ⟨hout,he⟩ | ⟨x,y,z,hin,he,hx,hy,hz⟩
    · have hbare : bare c = Review.whitespace c := by simp [bare,hout]
      rw [he,List.singleton_append,List.splitOnP_cons_eq_if_modifyHead,hbare,ih]
      by_cases hspace : Review.whitespace c
      · simp [hspace]
      · simp only [hspace]
        rw [if_neg (by simp),if_neg (by simp),hhead,he]
        rfl
    · have hbare : bare c = false := by simp [bare,hin]
      rw [hbare,if_neg (by simp),hhead,he,← ih]
      simp only [List.cons_append,List.nil_append,List.splitOnP_cons_eq_if_modifyHead,hback,
        (digit_word hx).1,(digit_word hy).1,(digit_word hz).1]
      obtain ⟨d,ds,hds⟩ := List.exists_cons_of_ne_nil
        (List.splitOnP_ne_nil Review.whitespace (render cs))
      simp [hds]

theorem words_render (cs : List Char) :
    splitWhitespace (render cs) = (bareWords cs).map render := by
  unfold splitWhitespace bareWords
  rw [splitOnP_render,List.filter_map]
  congr 1
  refine List.filter_congr fun a _ => ?_
  simp [render_eq_nil]

/-! ## Paths are read as they were rendered -/

theorem unescape_other {b : UInt8} (h : b ≠ 92) (bytes : List UInt8) :
    unescape (b::bytes) = (unescape bytes).map (b :: ·) := by
  rcases bytes with _ | ⟨x,_ | ⟨y,_ | ⟨z,rest⟩⟩⟩ <;> simp [unescape,h]

theorem unescape_plain {bs : List UInt8} (h : 92 ∉ bs) (rest : List UInt8) :
    unescape (bs ++ rest) = (unescape rest).map (bs ++ ·) := by
  induction bs with
  | nil => cases hrest : unescape rest <;> simp [hrest,Except.map]
  | cons b bs ih =>
    have hb : b ≠ 92 := fun heq => h (by simp [heq])
    rw [List.cons_append,unescape_other hb,ih fun hin => h (by simp [hin])]
    cases unescape rest <;> rfl

theorem unescape_escape (c : Char) (rest : List UInt8) :
    unescape (Utf8.encode (escape c) ++ rest) = (unescape rest).map (Utf8.encode [c] ++ ·) := by
  by_cases h : c ∈ escaped
  · simp only [escaped,List.mem_cons,List.not_mem_nil,or_false] at h
    rcases h with rfl | rfl | rfl | rfl | rfl <;> rfl
  · have hback : 92 ∉ Utf8.encode [c] := by
      intro hin
      have hc := Utf8.mem_encode_ascii hin (by decide)
      exact h (List.mem_singleton.mp hc ▸ by decide)
    rw [escape,if_neg h]
    exact unescape_plain hback rest

theorem unescape_render (cs : List Char) :
    unescape (Utf8.encode (render cs)) = .ok (Utf8.encode cs) := by
  induction cs with
  | nil => rfl
  | cons c cs ih =>
    rw [render_cons,Utf8.encode_append,unescape_escape,ih,Utf8.encode_cons]
    simp [Except.map,Utf8.encode]

theorem mountPath_render (cs : List Char) : mountPath (render cs) = .ok cs := by
  unfold mountPath
  rw [unescape_render]
  simp [bind,Except.bind,Utf8.decode_encode]

/-- The kernel's words are rendered as they stand. -/
theorem plain_word {c : Char} (h : plain c) : Review.whitespace c = false ∧ c ∉ escaped := by
  have hrange : 48 ≤ c.toNat ∧ c.toNat ≤ 58 ∨ 65 ≤ c.toNat ∧ c.toNat ≤ 90 ∨ c.toNat = 95 ∨
      97 ≤ c.toNat ∧ c.toNat ≤ 122 := by
    simp only [plain,Char.isAlphanum,Char.isAlpha,Char.isUpper,Char.isLower,Bool.or_eq_true,
      Bool.and_eq_true,decide_eq_true_eq] at h
    rcases h with (((h | h) | h) | h) | h
    · exact .inr (.inl ⟨h.1,h.2⟩)
    · exact .inr (.inr (.inr ⟨h.1,h.2⟩))
    · obtain ⟨hlow,hhigh⟩ := Json.digit_bounds h
      omega
    · exact .inl (by rw [h]; decide)
    · exact .inr (.inr (.inl (by rw [h]; rfl)))
  constructor
  · by_contra hspace
    rw [Bool.not_eq_false] at hspace
    simp only [Review.whitespace,Bool.or_eq_true,Bool.and_eq_true,decide_eq_true_eq,List.mem_cons,
      List.not_mem_nil,or_false] at hspace
    omega
  · intro hin
    simp only [escaped,List.mem_cons,List.not_mem_nil,or_false] at hin
    rcases hin with rfl | rfl | rfl | rfl | rfl <;> revert hrange <;> decide

theorem render_plain {cs : List Char} (h : ∀ c ∈ cs, c ∉ escaped) : render cs = cs := by
  induction cs with
  | nil => rfl
  | cons c cs ih =>
    rw [render_cons,escape,if_neg (h c (by simp)),ih fun d hd => h d (by simp [hd])]
    rfl

/-! ## Lines are cut into their fields -/

/-- The separator is found behind the fields, none of which is a dash. -/
theorem before_fields {f : List Char} (hf : ' ' ∉ f) {fields : List (List Char)}
    (hfields : ∀ g ∈ fields, ' ' ∉ g ∧ g ≠ ['-']) (rest : List Char) :
    Delimited.before " - ".toList (f ++ (fields.flatMap (' ' :: ·) ++ (" - ".toList ++ rest))) =
      some (f ++ fields.flatMap (' ' :: ·)) := by
  have hdash : " - ".toList = ' ' :: ['-',' '] := rfl
  rw [hdash]
  induction fields generalizing f with
  | nil =>
    rw [List.flatMap_nil,List.nil_append,Delimited.before_free hf,List.cons_append,
      Delimited.before_self]
    rfl
  | cons g fields ih =>
    obtain ⟨hg,hne⟩ := hfields g (by simp)
    have hrest := ih hg fun x hx => hfields x (by simp [hx])
    -- the field in front is no dash, so the separator does not begin here
    have hfront (more : List Char) : ¬ ' ' :: ['-',' '] <+: ' ' :: (g ++ ' ' :: more) := by
      intro hin
      obtain ⟨t,ht⟩ := (List.cons_prefix_cons.mp hin).2
      cases g with
      | nil =>
        have hhead := (List.cons.inj ht).1
        exact absurd hhead (by decide)
      | cons x g =>
        obtain ⟨rfl,htail⟩ := List.cons.inj ht
        cases g with
        | nil => exact hne rfl
        | cons y g =>
          obtain ⟨rfl,-⟩ := List.cons.inj htail
          exact hg (by simp)
    obtain ⟨more,hmore⟩ : ∃ more, fields.flatMap (' ' :: ·) ++ (' ' :: ['-',' '] ++ rest) =
        ' ' :: more := by
      cases fields with
      | nil => exact ⟨_,rfl⟩
      | cons x fields => exact ⟨_,rfl⟩
    have hsplit : (g::fields).flatMap (' ' :: ·) ++ (' ' :: ['-',' '] ++ rest) =
        ' ' :: (g ++ ' ' :: more) := by
      rw [← hmore]
      simp
    rw [hmore] at hrest
    rw [hsplit,Delimited.before_free hf,Delimited.before,
      if_neg (mt List.isPrefixOf_iff_prefix.mp (hfront more)),hrest]
    simp

/-- A line ends before its line feed, and before a carriage return in front of it. -/
theorem lines_line {l : List Char} (h : '\n' ∉ l) (rest : List Char) :
    ∃ l', (l = l' ∨ l = l' ++ ['\r']) ∧
      Operator.lines (l ++ '\n'::rest) = l' :: Operator.lines rest := by
  induction l with
  | nil => exact ⟨[],.inl rfl,rfl⟩
  | cons c l ih =>
    have hc : c ≠ '\n' := fun heq => h (by simp [heq])
    obtain ⟨l',hl',hread⟩ := ih fun hin => h (by simp [hin])
    by_cases hcr : c = '\r' ∧ l = []
    · obtain ⟨rfl,rfl⟩ := hcr
      exact ⟨[],.inr rfl,rfl⟩
    · have hcons : Operator.lines (c :: (l ++ '\n'::rest)) = (c::l') :: Operator.lines rest := by
        cases l with
        | nil =>
          have hne : c ≠ '\r' := fun heq => hcr ⟨heq,rfl⟩
          rw [List.nil_append] at hread ⊢
          rw [Operator.lines,if_neg hc,hread]
          intro cs heq
          exact absurd heq hne
        | cons d l =>
          have hd : d ≠ '\n' := fun heq => h (by simp [heq])
          rw [List.cons_append] at hread ⊢
          rw [Operator.lines,if_neg hc,hread]
          intro cs _ heq
          exact hd (List.cons.inj heq).1
      refine ⟨c::l',?_,hcons⟩
      rcases hl' with rfl | rfl
      · exact .inl rfl
      · exact .inr rfl

namespace Mount
variable (m : Mount)

/-- The words of root, mount point, options and tags, cut at bare white space. -/
def places : List (List Char) :=
  bareWords m.root ++ (bareWords m.point ++ (m.optionText :: m.optional))

def kinds : List (List Char) :=
  bareWords m.fsType ++ (bareWords m.source ++ bareWords m.superOptions)

/-- A record without room for its words, or with more or fewer than three behind the separator. -/
def Refused : Prop := m.root = ['-'] ∨ m.places.length < 3 ∨ m.kinds.length ≠ 3

/-- What the words of a record show: the second as a mount point, the third as its options, and
the first behind the separator as the type. -/
def shown : Option Entry :=
  match m.places,m.kinds with
  | _::point::options::_,fsType::_ =>
    some ⟨point,render fsType,((render options).splitOn ',').toFinset⟩
  | _,_ => none

end Mount

theorem Word.split {cs : List Char} (h : Word cs) : splitWhitespace cs = [cs] :=
  splitWhitespace_last h.1 fun c hc => (plain_word (List.all_eq_true.mp h.2 c hc)).1

theorem Word.render {cs : List Char} (h : Word cs) : render cs = cs :=
  render_plain fun c hc => (plain_word (List.all_eq_true.mp h.2 c hc)).2

theorem Word.free {cs : List Char} (h : Word cs) {c : Char} (hc : c ∈ escaped) : c ∉ cs :=
  fun hin => (plain_word (List.all_eq_true.mp h.2 c hin)).2 hc

theorem Word.space {cs : List Char} (h : Word cs) : ' ' ∉ cs := h.free (by decide)

theorem mem_intercalate {sep c : Char} {parts : List (List Char)}
    (h : c ∈ [sep].intercalate parts) : c = sep ∨ ∃ part ∈ parts, c ∈ part := by
  induction parts with
  | nil => cases h
  | cons part parts ih =>
    cases parts with
    | nil => exact .inr ⟨part,by simp,by simpa using h⟩
    | cons next parts =>
      rw [List.intercalate_cons_cons,List.append_assoc,List.mem_append,List.mem_append] at h
      rcases h with h | h | h
      · exact .inr ⟨part,by simp,h⟩
      · exact .inl (List.mem_singleton.mp h)
      · rcases ih h with hsep | ⟨p,hp,hc⟩
        · exact .inl hsep
        · exact .inr ⟨p,List.mem_cons_of_mem part hp,hc⟩

theorem intercalate_ne_nil {sep : Char} {part : List Char} {parts : List (List Char)}
    (h : part ≠ []) : [sep].intercalate (part::parts) ≠ [] := by
  cases parts with
  | nil => simpa using h
  | cons next parts =>
    rw [List.intercalate_cons_cons]
    simp [h]

theorem Word.field {cs : List Char} (h : Word cs) : ' ' ∉ cs ∧ cs ≠ ['-'] :=
  ⟨h.space,fun heq => absurd (heq ▸ h.2 : ['-'].all plain = true) (by decide)⟩

/-- The options of a mount are one word. -/
theorem optionText_word (m : Mount) : m.optionText ≠ [] ∧
    ∀ c ∈ m.optionText, Review.whitespace c = false ∧ c ∉ escaped := by
  constructor
  · obtain ⟨o,os,ho⟩ := List.exists_cons_of_ne_nil m.worded.1
    have hword := m.worded.2 o (by simp [ho])
    rw [Mount.optionText,ho]
    exact intercalate_ne_nil hword.1
  · intro c hc
    rcases mem_intercalate hc with rfl | ⟨o,ho,hin⟩
    · exact ⟨rfl,by decide⟩
    · exact plain_word (List.all_eq_true.mp (m.worded.2 o ho).2 c hin)

theorem optionText_split (m : Mount) : m.optionText.splitOn ',' = m.options := by
  refine List.splitOn_intercalate ',' (fun o ho hin => ?_) m.worded.1
  have hplain := List.all_eq_true.mp (m.worded.2 o ho).2 ',' hin
  exact absurd hplain (by decide)

/-! ## What a line of the table is read as -/

theorem words_fields (f : List Char) (fields : List (List Char)) :
    splitWhitespace (f ++ fields.flatMap (' ' :: ·)) =
      splitWhitespace f ++ fields.flatMap splitWhitespace := by
  induction fields generalizing f with
  | nil => simp
  | cons g fields ih =>
    rw [List.flatMap_cons,List.cons_append,splitWhitespace_append f rfl,ih,List.flatMap_cons]

theorem words_split {words : List (List Char)} (h : ∀ w ∈ words, Word w) :
    words.flatMap splitWhitespace = words := by
  induction words with
  | nil => rfl
  | cons w words ih =>
    rw [List.flatMap_cons,(h w (by simp)).split,ih fun x hx => h x (by simp [hx])]
    rfl

theorem map_render_words {words : List (List Char)} (h : ∀ w ∈ words, ∀ c ∈ w, c ∉ escaped) :
    words.map render = words := by
  induction words with
  | nil => rfl
  | cons w words ih =>
    rw [List.map_cons,render_plain (h w (by simp)),ih fun x hx => h x (by simp [hx])]

theorem places_render (m : Mount) : m.places.map render = splitWhitespace (render m.root) ++
    (splitWhitespace (render m.point) ++ (m.optionText :: m.optional)) := by
  have hlast : (m.optionText :: m.optional).map render = m.optionText :: m.optional := by
    refine map_render_words fun w hw c hc => ?_
    rcases List.mem_cons.mp hw with rfl | hw
    · exact ((optionText_word m).2 c hc).2
    · exact (plain_word (List.all_eq_true.mp (m.tagged w hw).2 c hc)).2
  rw [Mount.places,List.map_append,List.map_append,hlast,words_render,words_render]

theorem kinds_render (m : Mount) : m.kinds.map render = splitWhitespace (render m.fsType) ++
    (splitWhitespace (render m.source) ++ splitWhitespace (render m.superOptions)) := by
  rw [Mount.kinds,List.map_append,List.map_append,words_render,words_render,words_render]

def Mount.front (m : Mount) : List Char := m.id ++ m.fields.flatMap (' ' :: ·)

theorem words_front (m : Mount) :
    splitWhitespace m.front = m.id :: m.parent :: m.device :: m.places.map render := by
  have hoption := splitWhitespace_last (optionText_word m).1 fun c hc =>
    ((optionText_word m).2 c hc).1
  rw [Mount.front,words_fields,m.numbered.1.split,places_render]
  simp only [Mount.fields,List.flatMap_cons,m.numbered.2.1.split,m.numbered.2.2.split,hoption,
    words_split m.tagged,List.cons_append,List.nil_append]

theorem cut_last {p u l : List Char} (hp : p.getLast? ≠ some '\r') (h : p ++ u = l ++ ['\r']) :
    ∃ u', u = u' ++ ['\r'] ∧ l = p ++ u' := by
  rcases List.eq_nil_or_concat u with rfl | ⟨u',c,rfl⟩
  · rw [List.append_nil] at h
    rw [h] at hp
    simp at hp
  · rw [List.concat_eq_append,← List.append_assoc] at h
    obtain ⟨rfl,hc⟩ := List.append_inj' h rfl
    exact ⟨u',by rw [List.concat_eq_append,hc],rfl⟩

/-- A line is its fields and, behind the separator, the words of type, source and options. -/
theorem line_fields (m : Mount) {l : List Char} (h : m.line = l ∨ m.line = l ++ ['\r']) :
    ∃ after, l = m.front ++ (" - ".toList ++ after) ∧
      splitWhitespace after = m.kinds.map render := by
  have hwords (u : List Char) : splitWhitespace (render m.fsType ++ ' ' :: (render m.source ++
      ' ' :: u)) = splitWhitespace (render m.fsType) ++
        (splitWhitespace (render m.source) ++ splitWhitespace u) := by
    rw [splitWhitespace_append _ rfl,splitWhitespace_append _ rfl]
  have hline (u : List Char) : m.front ++ (" - ".toList ++ (render m.fsType ++ ' ' ::
      (render m.source ++ ' ' :: u))) = ((m.front ++ (" - ".toList ++ (render m.fsType ++ ' ' ::
        render m.source))) ++ [' ']) ++ u := by
    simp
  have hwhole : m.line = m.front ++ (" - ".toList ++ (render m.fsType ++ ' ' ::
      (render m.source ++ ' ' :: render m.superOptions))) := by
    simp [Mount.line,Mount.front]
  rcases h with h | h
  · exact ⟨_,h.symm.trans hwhole,by rw [hwords,kinds_render]⟩
  · rw [hwhole,hline] at h
    obtain ⟨u,hu,rfl⟩ := cut_last (by rw [List.getLast?_concat]; decide) h
    refine ⟨_,(hline u).symm,?_⟩
    have hreturn : splitWhitespace (render m.superOptions) = splitWhitespace u := by
      rw [hu,splitWhitespace_append u rfl,splitWhitespace_nil,List.append_nil]
    rw [hwords,kinds_render,hreturn]

theorem render_dash {cs : List Char} (h : render cs = ['-']) : cs = ['-'] := by
  cases cs with
  | nil => cases h
  | cons c cs =>
    rw [render_cons] at h
    rcases escape_cases c with ⟨-,he⟩ | ⟨x,y,z,-,he,-⟩
    · rw [he] at h
      obtain ⟨rfl,hrest⟩ := List.cons.inj h
      rw [render_eq_nil.mp hrest]
    · rw [he] at h
      have hlength := congrArg List.length h
      simp at hlength

theorem front_before (m : Mount) (hroot : m.root ≠ ['-']) (rest : List Char) :
    Delimited.before " - ".toList (m.front ++ (" - ".toList ++ rest)) = some m.front := by
  have hrender {cs : List Char} : ' ' ∉ render cs := render_free (by decide) (by decide)
  have hoption : ' ' ∉ m.optionText ∧ m.optionText ≠ ['-'] := by
    refine ⟨fun hin => ((optionText_word m).2 ' ' hin).2 (by decide),fun heq => ?_⟩
    rcases mem_intercalate (heq ▸ List.mem_singleton_self '-' : '-' ∈ m.optionText) with h | ⟨o,ho,h⟩
    · exact absurd h (by decide)
    · have hplain := List.all_eq_true.mp (m.worded.2 o ho).2 '-' h
      exact absurd hplain (by decide)
  have hfields : ∀ g ∈ m.fields, ' ' ∉ g ∧ g ≠ ['-'] := by
    intro g hg
    simp only [Mount.fields,List.mem_cons] at hg
    rcases hg with rfl | rfl | rfl | rfl | rfl | hg
    · exact m.numbered.2.1.field
    · exact m.numbered.2.2.field
    · exact ⟨hrender,fun h => hroot (render_dash h)⟩
    · refine ⟨hrender,fun h => ?_⟩
      have hhead := m.absolute
      rw [render_dash h] at hhead
      exact absurd hhead (by decide)
    · exact hoption
    · exact (m.tagged g hg).field
  rw [Mount.front,List.append_assoc]
  exact before_fields m.numbered.1.space hfields rest

theorem front_dash (m : Mount) (hroot : m.root = ['-']) (rest : List Char) :
    ∃ front, Delimited.before " - ".toList (m.front ++ rest) = some front ∧
      splitWhitespace front = [m.id,m.parent,m.device] := by
  have hfields : ∀ g ∈ [m.parent,m.device], ' ' ∉ g ∧ g ≠ ['-'] := by
    intro g hg
    simp only [List.mem_cons,List.not_mem_nil,or_false] at hg
    rcases hg with rfl | rfl
    · exact m.numbered.2.1.field
    · exact m.numbered.2.2.field
  have hfront : m.front ++ rest = m.id ++ ([m.parent,m.device].flatMap (' ' :: ·) ++
      (" - ".toList ++ ((render m.point :: m.optionText :: m.optional).flatMap (' ' :: ·) ++ rest).tail)) := by
    have hrender : render m.root = ['-'] := by rw [hroot]; rfl
    simp [Mount.front,Mount.fields,hrender]
  refine ⟨_,hfront ▸ before_fields m.numbered.1.space hfields _,?_⟩
  rw [words_fields,m.numbered.1.split]
  simp [m.numbered.2.1.split,m.numbered.2.2.split]

instance (m : Mount) : Decidable m.Refused := by unfold Mount.Refused; infer_instance

theorem addMount_refused {m : Mount} (hm : m.Refused) (result : Observed) {l : List Char}
    (h : m.line = l ∨ m.line = l ++ ['\r']) :
    addMount result l = .error "incomplete mountinfo record" := by
  obtain ⟨after,rfl,hafter⟩ := line_fields m h
  unfold addMount
  by_cases hroot : m.root = ['-']
  · obtain ⟨front,hbefore,hwords⟩ := front_dash m hroot (" - ".toList ++ after)
    simp only [hbefore,hwords]
  · have hdrop : (m.front ++ (" - ".toList ++ after)).drop (m.front.length + 3) = after := by
      rw [← List.drop_drop,List.drop_left]
      rfl
    simp only [front_before m hroot,hdrop,words_front,hafter]
    rcases hm with hm | hm | hm
    · exact absurd hm hroot
    · rcases hp : m.places with _ | ⟨root,_ | ⟨point,_ | ⟨options,places⟩⟩⟩
      · rfl
      · rfl
      · rfl
      · simp only [hp,List.length_cons] at hm
        omega
    · rcases hp : m.places with _ | ⟨root,_ | ⟨point,_ | ⟨options,places⟩⟩⟩
      · rfl
      · rfl
      · rfl
      · rcases hk : m.kinds with _ | ⟨fsType,_ | ⟨source,_ | ⟨options',_ | ⟨_,_⟩⟩⟩⟩
        · rfl
        · rfl
        · rfl
        · simp [hk] at hm
        · rfl

theorem addMount_shown {m : Mount} (hm : ¬ m.Refused) (result : Observed) {l : List Char}
    (h : m.line = l ∨ m.line = l ++ ['\r']) : ∃ e, m.shown = some e ∧
      addMount result l = if e.1 ∈ result then .error "duplicate mountpoint hides worker authority"
        else .ok (result.insert e.1 e.2) := by
  obtain ⟨after,rfl,hafter⟩ := line_fields m h
  obtain ⟨hroot,hplaces,hkinds⟩ : m.root ≠ ['-'] ∧ 3 ≤ m.places.length ∧ m.kinds.length = 3 := by
    simp only [Mount.Refused,not_or] at hm
    exact ⟨hm.1,by omega,not_not.mp hm.2.2⟩
  have hdrop : (m.front ++ (" - ".toList ++ after)).drop (m.front.length + 3) = after := by
    rw [← List.drop_drop,List.drop_left]
    rfl
  unfold addMount Mount.shown
  simp only [front_before m hroot,hdrop,words_front,hafter]
  rcases hp : m.places with _ | ⟨root,_ | ⟨point,_ | ⟨options,places⟩⟩⟩
  · simp [hp] at hplaces
  · simp [hp] at hplaces
  · simp [hp] at hplaces
  · rcases hk : m.kinds with _ | ⟨fsType,_ | ⟨source,_ | ⟨options',_ | ⟨_,_⟩⟩⟩⟩
    · simp [hk] at hkinds
    · simp [hk] at hkinds
    · simp [hk] at hkinds
    · refine ⟨_,rfl,?_⟩
      simp only [List.map_cons,List.map_nil,mountPath_render,bind,Except.bind]
    · simp [hk] at hkinds

/-! ## The table as a whole -/

theorem line_free (m : Mount) : '\n' ∉ m.line := by
  have hrender {cs : List Char} : '\n' ∉ render cs := render_free (by decide) (by decide)
  have hword {w : List Char} (h : Word w) : '\n' ∉ w := h.free (by decide)
  have hfields : ∀ g ∈ m.fields, '\n' ∉ g := by
    intro g hg
    simp only [Mount.fields,List.mem_cons] at hg
    rcases hg with rfl | rfl | rfl | rfl | rfl | hg
    · exact hword m.numbered.2.1
    · exact hword m.numbered.2.2
    · exact hrender
    · exact hrender
    · exact fun hin => ((optionText_word m).2 '\n' hin).2 (by decide)
    · exact hword (m.tagged g hg)
  simp only [Mount.line,List.mem_append,List.mem_flatMap,List.mem_cons,not_or,not_exists,not_and]
  refine ⟨hword m.numbered.1,fun g hg => ⟨by decide,hfields g hg⟩,by decide,hrender,by decide,
    hrender,by decide,hrender⟩

theorem table_lines (ms : List Mount) : ∃ ls, Operator.lines (table ms) = ls ∧
    List.Forall₂ (fun (m : Mount) l => m.line = l ∨ m.line = l ++ ['\r']) ms ls := by
  induction ms with
  | nil => exact ⟨[],rfl,.nil⟩
  | cons m ms ih =>
    obtain ⟨ls,hls,hall⟩ := ih
    obtain ⟨l,hl,hread⟩ := lines_line (line_free m) (table ms)
    refine ⟨l::ls,?_,.cons hl hall⟩
    rw [← hls,← hread]
    simp [table]

theorem mounts_fold {ms : List Mount} {ls : List (List Char)}
    (h : List.Forall₂ (fun (m : Mount) l => m.line = l ∨ m.line = l ++ ['\r']) ms ls)
    {result m : Observed} : ls.foldlM addMount result = .ok m ↔ (∀ r ∈ ms, ¬ r.Refused) ∧
      m.entries = (ms.filterMap Mount.shown : Multiset Entry) + result.entries := by
  induction h generalizing result with
  | nil =>
    simp only [List.foldlM_nil,List.filterMap_nil,Multiset.coe_nil,Multiset.zero_add]
    constructor
    · intro hok
      cases hok
      exact ⟨fun r hr => (nomatch hr),rfl⟩
    · intro hm
      rw [Finmap.ext hm.2]
      rfl
  | @cons r l ms ls hl _ ih =>
    rw [List.foldlM_cons,List.forall_mem_cons]
    by_cases hr : r.Refused
    · rw [addMount_refused hr result hl]
      exact ⟨fun hok => (nomatch hok),fun hm => absurd hr hm.1.1⟩
    · obtain ⟨e,he,hadd⟩ := addMount_shown hr result hl
      rw [hadd,List.filterMap_cons_some he,← Multiset.cons_coe,Multiset.cons_add]
      by_cases hin : e.1 ∈ result
      · rw [if_pos hin]
        refine ⟨fun hok => (nomatch hok),fun hm => ?_⟩
        have hkeys := Multiset.nodup_keys.mpr m.nodupKeys
        rw [hm.2,Multiset.keys,Multiset.map_cons,Multiset.map_add,Multiset.nodup_cons] at hkeys
        exact absurd (Multiset.mem_add.mpr (.inr (Finmap.mem_def.mp hin))) hkeys.1
      · rw [if_neg hin]
        have hrest := @ih (result.insert e.1 e.2)
        rw [Finmap.entries_insert_of_notMem hin,Multiset.add_cons] at hrest
        simp only [bind,Except.bind]
        rw [hrest]
        simp [hr]

/-- The table is read as what its records show, unless a record is refused or two show one mount
point. -/
theorem mounts_ok_iff {ms : List Mount} {m : Observed} : mounts (table ms) = .ok m ↔
    (∀ r ∈ ms, ¬ r.Refused) ∧ m.entries = (ms.filterMap Mount.shown : Multiset Entry) := by
  obtain ⟨ls,hls,hall⟩ := table_lines ms
  unfold mounts
  have hempty : (∅ : Observed).entries = 0 := rfl
  rw [hls,mounts_fold hall,hempty,Multiset.add_zero]

/-- A record of paths without bare white space, and a type that needs no escape. -/
structure Mount.Clean (m : Mount) : Prop where
  root : m.root ≠ [] ∧ ∀ c ∈ m.root, bare c = false
  point : ∀ c ∈ m.point, bare c = false
  fsType : m.fsType ≠ [] ∧ ∀ c ∈ m.fsType, bare c = false ∧ c ∉ escaped

theorem bareWords_one {cs : List Char} (hne : cs ≠ []) (h : ∀ c ∈ cs, bare c = false) :
    bareWords cs = [cs] := by
  unfold bareWords
  rw [List.splitOnP_eq_singleton h]
  simp [hne]

theorem Mount.Clean.shown {m : Mount} (h : m.Clean) : m.shown = some m.meant := by
  have hpoint : m.point ≠ [] := fun hnil => by
    have habsolute := m.absolute
    rw [hnil] at habsolute
    cases habsolute
  have hplaces : m.places = m.root :: m.point :: m.optionText :: m.optional := by
    rw [Mount.places,bareWords_one h.root.1 h.root.2,bareWords_one hpoint h.point]
    rfl
  have hkinds : m.kinds = m.fsType :: (bareWords m.source ++ bareWords m.superOptions) := by
    rw [Mount.kinds,bareWords_one h.fsType.1 fun c hc => (h.fsType.2 c hc).1]
    rfl
  unfold Mount.shown Mount.meant
  rw [hplaces,hkinds]
  simp only [render_plain fun c hc => (h.fsType.2 c hc).2,
    render_plain fun c hc => ((optionText_word m).2 c hc).2,optionText_split]

/-- Where all white space in the paths is escaped, a table is read as it stands or refused. -/
theorem mounts_clean {ms : List Mount} (h : ∀ m ∈ ms, m.Clean) {m : Observed}
    (hm : mounts (table ms) = .ok m) : m.entries = (ms.map Mount.meant : Multiset Entry) := by
  have hshown : ms.filterMap Mount.shown = ms.map Mount.meant := by
    rw [← List.filterMap_eq_map]
    exact List.filterMap_congr fun r hr => (h r hr).shown
  rw [(mounts_ok_iff.mp hm).2,hshown]

/-- A mount point with a space that the kernel does not escape. -/
def spaced : Mount where
  id := "1".toList
  parent := "0".toList
  device := "0:1".toList
  root := "/".toList
  point := "/a\u00a0b".toList
  options := ["ro".toList]
  optional := []
  fsType := "tmpfs".toList
  source := "tmpfs".toList
  superOptions := "rw".toList
  numbered := ⟨⟨by decide,by decide⟩,⟨by decide,by decide⟩,⟨by decide,by decide⟩⟩
  absolute := rfl
  worded := ⟨by decide,fun o ho => by
    rw [List.mem_singleton.mp ho]
    exact ⟨by decide,by decide⟩⟩
  tagged := fun o ho => nomatch ho

theorem spaced_read : (mounts (table [spaced])).toOption.map
    (fun m => (m.lookup "/a".toList,m.lookup spaced.point)) =
      some (some ("tmpfs".toList,{"b".toList}),none) := by decide +kernel

end Mounts
end CanixToolbelt
