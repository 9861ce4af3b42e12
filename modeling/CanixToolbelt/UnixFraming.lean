import CanixToolbelt.UnixHttp

/-! What a framed response is by its grammar, and that exactly the document that it frames is
decoded: no response is cut short, and none goes on. -/
namespace CanixToolbelt
namespace UnixFraming
open Numerals Text UnixHttp

/-! ## The grammar of responses -/

structure Field where
  name : List Char
  value : List UInt8

def Field.bytes (f : Field) : List UInt8 := Utf8.encode f.name ++ 58 :: f.value

def Field.Valid (f : Field) : Prop := validHeaderName f.name ∧ 13 ∉ f.value ∧ 10 ∉ f.value

/-- A field that says nothing of the framing. -/
def Field.Plain (f : Field) : Prop :=
  f.Valid ∧ contentLength f.name = false ∧ transferEncoding f.name = false

def fieldLines (fields : List Field) : List UInt8 := fields.flatMap fun f => crlf ++ f.bytes

def Blank (bytes : List UInt8) : Prop := ∀ b ∈ bytes, b = 32 ∨ b = 9

/-- A head with the one field that frames the body. -/
structure Head where
  version : List Char
  code : List Char
  reason : List UInt8
  front : List Field
  frame : Field
  back : List Field

def Head.status (h : Head) : List UInt8 :=
  Utf8.encode h.version ++ 32 :: (Utf8.encode h.code ++ h.reason)

def Head.fields (h : Head) : List Field := h.front ++ h.frame :: h.back

def Head.bytes (h : Head) : List UInt8 := h.status ++ fieldLines h.fields

structure Head.Valid (h : Head) : Prop where
  version : h.version = "HTTP/1.0".toList ∨ h.version = "HTTP/1.1".toList
  code : h.code = "200".toList ∨ h.code = "201".toList
  reason : (∀ b ∈ h.reason.head?, b = 32) ∧ 13 ∉ h.reason ∧ 10 ∉ h.reason
  front : ∀ f ∈ h.front, f.Plain
  frame : h.frame.Valid
  back : ∀ f ∈ h.back, f.Plain

section
-- which texts of the framing a grammar takes: any bytes, or UTF-8 only
variable (Readable : List UInt8 → Prop)

/-- A hexadecimal size, and extensions directly behind it. -/
def ChunkLine (text : List UInt8) (n : ℕ) : Prop :=
  Readable text ∧ ∃ size ext, text = Utf8.encode size ++ ext ∧ Numeral 16 size n ∧
    (∀ b ∈ ext.head?, b = 59) ∧ 13 ∉ ext ∧ 10 ∉ ext

def TrailerLine (text : List UInt8) : Prop :=
  Readable text ∧ ∃ f : Field, text = f.bytes ∧ f.Plain

/-- How a field frames the bytes behind the head: they are so many, or they are chunks. -/
def Frames (f : Field) (raw body : List UInt8) : Prop :=
  ∃ a value b, f.value = a ++ (Utf8.encode value ++ b) ∧ Blank a ∧ Blank b ∧
    ((contentLength f.name ∧ Numeral 10 value raw.length ∧ body = raw) ∨
      (transferEncoding f.name ∧ lower value = "chunked".toList ∧
        Chunked (ChunkLine Readable) (TrailerLine Readable) raw body))

/-- A response that frames a body by its length or in chunks. -/
def Framed (response body : List UInt8) : Prop :=
  ∃ (h : Head) (raw : List UInt8), h.Valid ∧ Readable h.bytes ∧ Frames Readable h.frame raw body ∧
    response = h.bytes ++ (blankLine ++ raw)

end

def Legible (bytes : List UInt8) : Prop := (Utf8.decode bytes).isSome

instance : DecidablePred Legible := fun bytes =>
  inferInstanceAs (Decidable ((Utf8.decode bytes).isSome = true))

/-! ## Lines of texts -/

theorem mem_encode {c : Char} {cs : List Char} {b : UInt8} (hc : String.utf8EncodeChar c = [b])
    (h : c ∈ cs) : b ∈ Utf8.encode cs :=
  List.mem_flatMap.mpr ⟨c,h,by rw [hc]; simp⟩

theorem not_mem_encode {c : Char} {cs : List Char} {b : UInt8} (hb : b.toNat < 128)
    (hc : Char.ofNat b.toNat = c) (h : c ∉ cs) : b ∉ Utf8.encode cs :=
  fun hin => h (hc ▸ Utf8.mem_encode_ascii hin hb)

theorem headerName_free {name : List Char} (h : validHeaderName name) {c : Char}
    (hc : headerChar c = false) : c ∉ name := by
  intro hin
  have hall := (Bool.and_eq_true_iff.mp h).2
  have htrue := List.all_eq_true.mp hall c hin
  rw [hc] at htrue
  cases htrue

theorem Field.free {f : Field} (h : f.Valid) : 13 ∉ f.bytes := by
  have hname : 13 ∉ Utf8.encode f.name :=
    not_mem_encode (c := '\r') (by decide) rfl (headerName_free h.1 rfl)
  simp only [Field.bytes,List.mem_append,List.mem_cons,not_or]
  exact ⟨hname,by decide,h.2.1⟩

theorem Field.ne_nil (f : Field) : f.bytes ≠ [] :=
  List.append_ne_nil_of_right_ne_nil _ (List.cons_ne_nil _ _)

/-- The bytes of a field are those of its name, a colon and a text. -/
theorem Field.text {f : Field} {t : List Char} (h : Utf8.encode t = f.bytes) :
    ∃ v, t = f.name ++ ':' :: v ∧ f.value = Utf8.encode v := by
  obtain ⟨t₁,t₂,rfl,hname,hvalue⟩ := Utf8.encode_split (by decide) h
  obtain rfl := Utf8.encode_inj hname
  exact ⟨t₂,rfl,hvalue⟩

/-- The text of the head falls into the texts of its lines. -/
theorem lines_text {fields : List Field} (hfields : ∀ f ∈ fields, f.Valid) {t : List Char}
    {line : List UInt8} (hline : 13 ∉ line) (h : Utf8.encode t = line ++ fieldLines fields) :
    ∃ l ls, splitCrlf t = l::ls ∧ Utf8.encode l = line ∧
      List.Forall₂ (fun f l => Utf8.encode l = f.bytes) fields ls := by
  induction fields generalizing t line with
  | nil =>
    rw [fieldLines,List.flatMap_nil,List.append_nil] at h
    have hfree : '\r' ∉ t := fun hin => hline (h ▸ mem_encode rfl hin)
    exact ⟨t,[],splitCrlf_free hfree,h,.nil⟩
  | cons f fields ih =>
    have hbytes : fieldLines (f::fields) = 13 :: 10 :: (f.bytes ++ fieldLines fields) := by
      simp [fieldLines,crlf]
    rw [hbytes] at h
    obtain ⟨t₁,t₂,rfl,hleft,hright⟩ := Utf8.encode_split (by decide) h
    obtain ⟨t₃,t₄,rfl,hnil,hrest⟩ := Utf8.encode_split (v := []) (by decide) hright.symm
    obtain rfl := Utf8.encode_inj (b := []) hnil.symm
    have hfree : '\r' ∉ t₁ := fun hin => hline (hleft ▸ mem_encode rfl hin)
    obtain ⟨l,ls,hsplit,hl,hls⟩ := ih (fun g hg => hfields g (by simp [hg]))
      (Field.free (hfields f (by simp))) hrest.symm
    refine ⟨t₁,l::ls,?_,hleft.symm,.cons hl hls⟩
    rw [← hsplit]
    exact splitCrlf_append hfree t₄

/-- The blank line ends the head, and no other does. -/
theorem before_fields {fields : List Field} (hfields : ∀ f ∈ fields, f.Valid) (raw : List UInt8) :
    Delimited.before blankLine (fieldLines fields ++ (blankLine ++ raw)) =
      some (fieldLines fields) := by
  induction fields with
  | nil => exact Delimited.before_self raw
  | cons f fields ih =>
    obtain ⟨b,bs,hb⟩ := List.exists_cons_of_ne_nil f.ne_nil
    have hfree := Field.free (hfields f (by simp))
    have hne : b ≠ 13 := fun h => hfree (by rw [hb,h]; simp)
    have hsplit : fieldLines (f::fields) ++ (blankLine ++ raw) =
        13 :: 10 :: (f.bytes ++ (fieldLines fields ++ (blankLine ++ raw))) := by
      simp [fieldLines,crlf]
    have hfront (rest : List UInt8) : Delimited.before blankLine (13 :: 10 :: (f.bytes ++ rest)) =
        (Delimited.before blankLine (f.bytes ++ rest)).map fun a => 13 :: 10 :: a := by
      rw [hb]
      simp [Delimited.before,blankLine,Ne.symm hne,Function.comp_def]
    rw [hsplit,hfront,blankLine,Delimited.before_free hfree]
    rw [blankLine] at ih
    rw [ih fun g hg => hfields g (by simp [hg])]
    simp [fieldLines,crlf]

/-! ## Words and numbers -/

theorem digit_whitespace {radix : ℕ} {c : Char} (h : Review.whitespace c) : digit radix c = none := by
  have hlow : ¬ c.isDigit = true := by
    intro hdigit
    simp only [Char.isDigit,ge_iff_le,Bool.and_eq_true,decide_eq_true_eq,UInt32.le_iff_toNat_le] at hdigit
    simp only [Review.whitespace,Bool.or_eq_true,Bool.and_eq_true,decide_eq_true_eq,List.mem_cons,
      List.not_mem_nil,or_false,Char.toNat] at h
    have h48 : ('0'.val).toNat = 48 := rfl
    have h57 : ('9'.val).toNat = 57 := rfl
    omega
  have hletters : ∀ {a b : Char}, 65 ≤ a.toNat → b.toNat ≤ 102 → ¬ (a ≤ c ∧ c ≤ b) := by
    intro a b ha hb hc
    have hac : a.toNat ≤ c.toNat := hc.1
    have hcb : c.toNat ≤ b.toNat := hc.2
    simp only [Review.whitespace,Bool.or_eq_true,Bool.and_eq_true,decide_eq_true_eq,List.mem_cons,
      List.not_mem_nil,or_false] at h
    omega
  unfold digit
  rw [if_neg hlow,if_neg (hletters (by decide) (by decide)),
    if_neg (hletters (by decide) (by decide))]
  rfl

theorem numeral_word {radix n : ℕ} {cs : List Char} (h : Numeral radix cs n) :
    ∀ c ∈ cs, Review.whitespace c = false := by
  intro c hc
  by_contra hspace
  exact digit_of_mem h.2 hc (digit_whitespace (Bool.not_eq_false _ ▸ hspace))

theorem word_of_all {cs : List Char} (hne : cs.isEmpty = false)
    (h : (cs.all fun c => !Review.whitespace c) = true) :
    cs ≠ [] ∧ ∀ c ∈ cs, Review.whitespace c = false := by
  refine ⟨fun hnil => ?_,fun c hc => by simpa using List.all_eq_true.mp h c hc⟩
  rw [hnil] at hne
  cases hne

theorem lower_word {value word : List Char} (hword : word.all fun c => !Review.whitespace c)
    (h : lower value = word) : ∀ c ∈ value, Review.whitespace c = false := by
  intro c hc
  by_contra hspace
  rw [Bool.not_eq_false] at hspace
  have hsame : c.toLower = c := by
    unfold Char.toLower
    rw [dif_neg]
    intro hupper
    have hlow : 65 ≤ c.toNat := UInt32.le_iff_toNat_le.mp hupper.1
    have hhigh : c.toNat ≤ 90 := UInt32.le_iff_toNat_le.mp hupper.2
    simp only [Review.whitespace,Bool.or_eq_true,Bool.and_eq_true,decide_eq_true_eq,List.mem_cons,
      List.not_mem_nil,or_false] at hspace
    omega
  have hin : c ∈ word := by
    rw [← h,← hsame]
    exact List.mem_map_of_mem hc
  have hnot := List.all_eq_true.mp hword c hin
  rw [hspace] at hnot
  cases hnot

/-- Blanks are the bytes of white space. -/
theorem blank_text {bytes : List UInt8} (h : Blank bytes) :
    ∃ cs, bytes = Utf8.encode cs ∧ ∀ c ∈ cs, Review.whitespace c := by
  induction bytes with
  | nil => exact ⟨[],rfl,fun c hc => nomatch hc⟩
  | cons b bytes ih =>
    obtain ⟨cs,rfl,hcs⟩ := ih fun x hx => h x (by simp [hx])
    rcases h b (by simp) with rfl | rfl
    · refine ⟨' '::cs,rfl,fun c hc => ?_⟩
      rcases List.mem_cons.mp hc with rfl | hc
      · rfl
      · exact hcs c hc
    · refine ⟨'\t'::cs,rfl,fun c hc => ?_⟩
      rcases List.mem_cons.mp hc with rfl | hc
      · rfl
      · exact hcs c hc

theorem trim_text {v value : List Char} {a b : List UInt8} (ha : Blank a) (hb : Blank b)
    (h : Utf8.encode v = a ++ (Utf8.encode value ++ b)) (hne : value ≠ [])
    (hvalue : ∀ c ∈ value, Review.whitespace c = false) : trim v = value := by
  obtain ⟨as,rfl,has⟩ := blank_text ha
  obtain ⟨bs,rfl,hbs⟩ := blank_text hb
  rw [← Utf8.encode_append,← Utf8.encode_append] at h
  rw [Utf8.encode_inj h]
  exact trim_around has hvalue hne hbs

/-! ## The head is read as its field frames it -/

theorem Head.Valid.fields {h : Head} (hvalid : h.Valid) : ∀ f ∈ h.fields, f.Valid := by
  intro f hf
  rcases List.mem_append.mp hf with hf | hf
  · exact (hvalid.front f hf).1
  · rcases List.mem_cons.mp hf with rfl | hf
    · exact hvalid.frame
    · exact (hvalid.back f hf).1

theorem status_text {h : Head} (hvalid : h.Valid) {l : List Char}
    (hl : Utf8.encode l = h.status) : status l = .ok () := by
  obtain ⟨l₁,l₂,rfl,hversion,hrest⟩ := Utf8.encode_split (by decide) hl
  obtain rfl := Utf8.encode_inj hversion
  obtain ⟨l₃,rfl,hreason⟩ := Utf8.encode_append_left hrest.symm
  have hversionWord : h.version ≠ [] ∧ ∀ c ∈ h.version, Review.whitespace c = false := by
    rcases hvalid.version with hv | hv <;> rw [hv]
    · exact @word_of_all "HTTP/1.0".toList rfl rfl
    · exact @word_of_all "HTTP/1.1".toList rfl rfl
  have hcodeWord : h.code ≠ [] ∧ ∀ c ∈ h.code, Review.whitespace c = false := by
    rcases hvalid.code with hc | hc <;> rw [hc]
    · exact @word_of_all "200".toList rfl rfl
    · exact @word_of_all "201".toList rfl rfl
  have hwords : ∃ words, splitWhitespace (h.version ++ ' ' :: (h.code ++ l₃)) =
      h.version :: h.code :: words := by
    rw [splitWhitespace_word hversionWord.1 hversionWord.2 rfl]
    cases l₃ with
    | nil => exact ⟨[],by rw [List.append_nil,splitWhitespace_last hcodeWord.1 hcodeWord.2]⟩
    | cons c l₃ =>
      obtain rfl : c = ' ' := Utf8.head_ascii (b := 32) (by decide) fun b hb =>
        hvalid.reason.1 b (hreason ▸ hb)
      exact ⟨_,by rw [splitWhitespace_word hcodeWord.1 hcodeWord.2 rfl]⟩
  obtain ⟨words,hwords⟩ := hwords
  unfold status
  rw [show Char.ofNat (UInt8.toNat 32) = ' ' from rfl,hwords]
  rcases hvalid.version with hv | hv <;> rcases hvalid.code with hc | hc <;> rw [hv,hc] <;> rfl

theorem status_free {h : Head} (hvalid : h.Valid) : 13 ∉ h.status := by
  have hword : ∀ {cs : List Char}, (cs.all fun c => c ≠ '\r') = true → 13 ∉ Utf8.encode cs := by
    intro cs hall
    refine not_mem_encode (c := '\r') (by decide) rfl fun hin => ?_
    simpa using List.all_eq_true.mp hall '\r' hin
  have hversion : 13 ∉ Utf8.encode h.version := by
    rcases hvalid.version with hv | hv <;> rw [hv] <;> exact hword rfl
  have hcode : 13 ∉ Utf8.encode h.code := by
    rcases hvalid.code with hc | hc <;> rw [hc] <;> exact hword rfl
  simp only [Head.status,List.mem_append,List.mem_cons,not_or]
  exact ⟨hversion,by decide,hcode,hvalid.reason.2.1⟩

theorem header_plain {f : Field} (hf : f.Plain) {l : List Char} (hl : Utf8.encode l = f.bytes)
    (framing : Framing) : header framing l = .ok framing := by
  obtain ⟨v,rfl,-⟩ := Field.text hl
  have hcolon : ':' ∉ f.name := headerName_free hf.1.1 rfl
  unfold header
  rw [splitOnce_append hcolon]
  simp [hf.1.1,hf.2.1,hf.2.2]

theorem headers_plain {fields : List Field} {ls : List (List Char)} (hfields : ∀ f ∈ fields, f.Plain)
    (hls : List.Forall₂ (fun f l => Utf8.encode l = f.bytes) fields ls) (framing : Framing) :
    ls.foldlM header framing = .ok framing := by
  induction hls with
  | nil => rfl
  | cons hl _ ih =>
    rw [List.foldlM_cons,header_plain (hfields _ (by simp)) hl]
    exact ih fun g hg => hfields g (by simp [hg])

/-- Of the lines of a head, only the one that frames the body counts. -/
theorem headers_frame {front back : List Field} {frame : Field} {ls : List (List Char)}
    (hfront : ∀ f ∈ front, f.Plain) (hback : ∀ f ∈ back, f.Plain)
    (hls : List.Forall₂ (fun f l => Utf8.encode l = f.bytes) (front ++ frame::back) ls) :
    ∃ l, Utf8.encode l = frame.bytes ∧ ls.foldlM header (none,false) = header (none,false) l := by
  induction front generalizing ls with
  | nil =>
    cases hls with
    | @cons _ l _ ls hl hls =>
      refine ⟨l,hl,?_⟩
      rw [List.foldlM_cons]
      cases hframe : header (none,false) l with
      | error e => rfl
      | ok framing => exact headers_plain hback hls framing
  | cons f front ih =>
    cases hls with
    | @cons _ l _ ls hl hls =>
      obtain ⟨l',hl',hfold⟩ := ih (fun g hg => hfront g (by simp [hg])) hls
      refine ⟨l',hl',?_⟩
      rw [List.foldlM_cons,header_plain (hfront f (by simp)) hl]
      exact hfold

theorem coding_not_length {name : List Char} (h : transferEncoding name) :
    contentLength name = false := by
  simp only [transferEncoding,decide_eq_true_eq] at h
  simp only [contentLength,h]
  rfl

/-- What the field declares that frames the bytes behind the head. -/
def declared (f : Field) (raw : List UInt8) : Framing :=
  if contentLength f.name then (some raw.length,false) else (none,true)

section
variable {Readable : List UInt8 → Prop}

theorem header_frame {f : Field} {raw body : List UInt8} (hf : f.Valid)
    (hframes : Frames Readable f raw body) {l : List Char} (hl : Utf8.encode l = f.bytes)
    {framing : Framing} : header (none,false) l = .ok framing ↔
      framing = declared f raw ∧ (contentLength f.name → raw.length < usizeBound) := by
  obtain ⟨v,rfl,hv⟩ := Field.text hl
  obtain ⟨a,value,b,hvalue,ha,hb,hkind⟩ := hframes
  rw [hv] at hvalue
  have hcolon : ':' ∉ f.name := headerName_free hf.1 rfl
  unfold header
  rw [splitOnce_append hcolon]
  simp only [hf.1,declared]
  rcases hkind with ⟨hlength,hnumeral,-⟩ | ⟨hcoding,hlower,-⟩
  · have htrim := trim_text ha hb hvalue hnumeral.1 (numeral_word hnumeral)
    have hread {m : ℕ} : fromStrRadix 10 usizeBound value = .ok m ↔ m = raw.length ∧ raw.length < usizeBound :=
      fromStrRadix_numeral (by decide) (by decide) hnumeral
    rw [htrim]
    cases hnumber : fromStrRadix 10 usizeBound value with
    | ok m =>
      obtain ⟨rfl,hm⟩ := hread.mp hnumber
      simp [hlength,hm,eq_comm]
    | error e =>
      have hbig : ¬ raw.length < usizeBound := fun hm => by
        rw [hread.mpr ⟨rfl,hm⟩] at hnumber
        cases hnumber
      simp [hlength,hbig,invalid]
  · have hnot := coding_not_length hcoding
    have hne : value ≠ [] := by
      rintro rfl
      cases hlower
    have htrim := trim_text ha hb hvalue hne (@lower_word _ "chunked".toList rfl hlower)
    rw [htrim]
    simp [hnot,hcoding,hlower,eq_comm]

/-- The head of a framed response, where it is UTF-8, declares how the body is framed. -/
theorem head_text {h : Head} (hvalid : h.Valid) {raw body : List UInt8}
    (hframes : Frames Readable h.frame raw body) {t : List Char} (ht : Utf8.encode t = h.bytes)
    {framing : Framing} : head t = .ok framing ↔
      framing = declared h.frame raw ∧ (contentLength h.frame.name → raw.length < usizeBound) := by
  obtain ⟨l,ls,hsplit,hl,hls⟩ := lines_text hvalid.fields (status_free hvalid) ht
  obtain ⟨l',hl',hfold⟩ := headers_frame hvalid.front hvalid.back hls
  unfold head
  rw [hsplit]
  simp only [status_text hvalid hl,bind,Except.bind]
  rw [hfold]
  exact header_frame hvalid.frame hframes hl'

/-! ## Chunks are read as they are written -/

theorem numeral_free {n : ℕ} {cs : List Char} (h : Numeral 16 cs n) {c : Char}
    (hc : digit 16 c = none) : c ∉ cs := fun hin => digit_of_mem h.2 hin hc

/-- The line of a chunk that is UTF-8 has the size that stands in front, if that has room. -/
theorem chunkLine_iff {text : List UInt8} {n m : ℕ} (h : ChunkLine Readable text n) :
    SizeRead text m ↔ Legible text ∧ m = n ∧ n < usizeBound := by
  obtain ⟨-,size,ext,rfl,hsize,hext,-⟩ := h
  unfold SizeRead chunkSize Legible
  cases htext : Utf8.decode (Utf8.encode size ++ ext) with
  | none => simp [invalid]
  | some t =>
    obtain ⟨t',rfl,rfl⟩ := Utf8.encode_append_left (Utf8.decode_iff.mp htext).symm
    have hsemi : ∀ c ∈ size, decide (c ≠ ';') = true := fun c hc => by
      simpa using fun heq : c = ';' => numeral_free hsize rfl (heq ▸ hc)
    have htake : (size ++ t').takeWhile (· ≠ ';') = size := by
      rw [List.takeWhile_append_of_pos hsemi]
      cases t' with
      | nil => simp
      | cons c t' =>
        obtain rfl : c = ';' := Utf8.head_ascii (b := 59) (by decide) hext
        simp
    have hread : fromStrRadix 16 usizeBound size = .ok m ↔ _ :=
      fromStrRadix_numeral (by decide) (by decide) hsize
    simp only [htake,Option.isSome_some,true_and]
    rw [← hread]
    cases fromStrRadix 16 usizeBound size <;> simp [invalid]

theorem chunkLine_same (text : List UInt8) (n m : ℕ) (h : ChunkLine Readable text n)
    (hread : SizeRead text m) : n = m := ((chunkLine_iff h).mp hread).2.1.symm

theorem trailerLine_read {text : List UInt8} (h : TrailerLine Legible text) : TrailerRead text := by
  obtain ⟨hlegible,f,rfl,hf⟩ := h
  obtain ⟨t,ht⟩ := Option.isSome_iff_exists.mp hlegible
  obtain ⟨v,rfl,-⟩ := Field.text (Utf8.decode_iff.mp ht).symm
  have hcolon : ':' ∉ f.name := headerName_free hf.1.1 rfl
  unfold TrailerRead trailer
  rw [ht,Option.bind_some,splitOnce_append hcolon]
  simp [hf.1.1,hf.2.1,hf.2.2]

theorem Frames.carries {f : Field} {raw body : List UInt8} (hbound : raw.length < usizeBound)
    (h : Frames Legible f raw body) : Carries (declared f raw) raw body := by
  obtain ⟨a,value,b,-,-,-,⟨hlength,-,rfl⟩ | ⟨hcoding,-,hchunked⟩⟩ := h
  · simp [declared,hlength,Carries]
  · have hnot := coding_not_length hcoding
    simp only [declared,hnot,Carries]
    refine ⟨rfl,hchunked.imp (fun text n hn hsize => ?_) fun text => trailerLine_read⟩
    exact (chunkLine_iff hsize).mpr ⟨hsize.1,rfl,by omega⟩

/-- What is framed is neither cut short nor goes on, and carries one body. -/
theorem Frames.extend {f : Field} {raw body e bytes : List UInt8} (h : Frames Readable f raw body)
    (h' : Carries (declared f raw) (raw ++ e) bytes) : e = [] ∧ bytes = body := by
  obtain ⟨a,value,b,-,-,-,⟨hlength,-,rfl⟩ | ⟨hcoding,-,hchunked⟩⟩ := h
  · simp only [declared,hlength,Carries] at h'
    obtain rfl : e = [] := by simpa using h'.1 _ rfl
    exact ⟨rfl,by simpa using h'.2⟩
  · have hnot := coding_not_length hcoding
    simp only [declared,hnot,Carries] at h'
    exact hchunked.extend chunkLine_same h'.2

theorem Frames.shorten {f : Field} {raw body e bytes : List UInt8}
    (h : Frames Readable f (raw ++ e) body) (h' : Carries (declared f (raw ++ e)) raw bytes) :
    e = [] := by
  obtain ⟨a,value,b,-,-,-,⟨hlength,-,-⟩ | ⟨hcoding,-,hchunked⟩⟩ := h
  · simp only [declared,hlength,Carries] at h'
    have hsame : (raw ++ e).length = raw.length := h'.1 _ rfl
    simpa using hsame
  · have hnot := coding_not_length hcoding
    simp only [declared,hnot,Carries] at h'
    have hsame : ∀ text n n', SizeRead text n → ChunkLine Readable text n' → n = n' :=
      fun text n n' hread hsize => (chunkLine_same text n' n hsize hread).symm
    exact (h'.2.extend hsame hchunked).1

/-! ## Responses -/

theorem before_head {h : Head} (hvalid : h.Valid) (raw : List UInt8) :
    Delimited.before blankLine (h.bytes ++ (blankLine ++ raw)) = some h.bytes := by
  have hrest := before_fields hvalid.fields raw
  rw [blankLine] at hrest ⊢
  rw [Head.bytes,List.append_assoc,Delimited.before_free (status_free hvalid),hrest]
  rfl

/-- A response of a framed head is headed by what its field declares. -/
theorem headed_iff {h : Head} (hvalid : h.Valid) {raw body rest raw' : List UInt8}
    (hframes : Frames Readable h.frame raw body) {framing : Framing} :
    Headed (h.bytes ++ (blankLine ++ rest)) framing raw' ↔ Legible h.bytes ∧ raw' = rest ∧
      framing = declared h.frame raw ∧ (contentLength h.frame.name → raw.length < usizeBound) := by
  constructor
  · rintro ⟨headers,t,hbefore,hresponse,ht,hhead⟩
    obtain rfl := Option.some.inj ((before_head hvalid rest).symm.trans hbefore)
    have hrest : raw' = rest := by simpa using hresponse.symm
    refine ⟨?_,hrest,(head_text hvalid hframes (Utf8.decode_iff.mp ht).symm).mp hhead⟩
    rw [Legible,ht]
    rfl
  · rintro ⟨hlegible,rfl,hdeclared⟩
    obtain ⟨t,ht⟩ := Option.isSome_iff_exists.mp hlegible
    exact ⟨h.bytes,t,before_head hvalid _,rfl,ht,
      (head_text hvalid hframes (Utf8.decode_iff.mp ht).symm).mpr hdeclared⟩

end

section
variable {fromSlice : List UInt8 → Option Json}

theorem decode_ok {response : List UInt8} {value : Json}
    (h : decodeRoborevHttp fromSlice response = .ok value) : response.length ≤ maxResponse ∧
      ∃ framing raw bytes, Headed response framing raw ∧ Carries framing raw bytes := by
  unfold decodeRoborevHttp at h
  split at h
  · cases h
  · rename_i hlength
    refine ⟨by omega,?_⟩
    have hbound : response.length < usizeBound := by
      unfold maxResponse at hlength
      unfold usizeBound
      omega
    rcases document_cases hbound with ⟨framing,raw,bytes,hheaded,hcarries,-⟩ | ⟨-,message,herror⟩
    · exact ⟨framing,raw,bytes,hheaded,hcarries⟩
    · rw [herror] at h
      cases h

/-- Every decoding ends in a document or with an error that has a message. -/
theorem decode_ends (fromSlice : List UInt8 → Option Json) (response : List UInt8) :
    (∃ value, decodeRoborevHttp fromSlice response = .ok value) ∨
      ∃ message, decodeRoborevHttp fromSlice response = .error (.error message) := by
  unfold decodeRoborevHttp
  split
  · exact .inr ⟨_,rfl⟩
  · rename_i hlength
    have hbound : response.length < usizeBound := by
      unfold maxResponse at hlength
      unfold usizeBound
      omega
    rcases document_cases hbound with ⟨_,_,bytes,-,-,hok⟩ | ⟨-,message,herror⟩
    · rw [hok]
      simp only [bind,Except.bind]
      cases fromSlice bytes with
      | none => exact .inr ⟨_,rfl⟩
      | some value => exact .inl ⟨value,rfl⟩
    · rw [herror]
      exact .inr ⟨message,rfl⟩

theorem decode_framed {response body : List UInt8} (h : Framed Legible response body)
    (hlength : response.length ≤ maxResponse) {value : Json} (hvalue : fromSlice body = some value) :
    decodeRoborevHttp fromSlice response = .ok value := by
  have hbound : response.length < usizeBound := by
    unfold maxResponse at hlength
    unfold usizeBound
    omega
  obtain ⟨h,raw,hvalid,hlegible,hframes,rfl⟩ := h
  have hraw : raw.length < usizeBound := by
    simp only [List.length_append] at hbound
    omega
  have hheaded := (@headed_iff _ _ hvalid _ _ raw _ hframes _).mpr ⟨hlegible,rfl,rfl,fun _ => hraw⟩
  have hcarries := hframes.carries hraw
  rcases document_cases hbound with ⟨framing,raw',bytes,hheaded',hcarries',hok⟩ | ⟨hnot,-⟩
  · obtain ⟨rfl,rfl⟩ := hheaded.unique hheaded'
    obtain ⟨-,rfl⟩ := hframes.extend (e := []) (by simpa using hcarries')
    unfold decodeRoborevHttp
    rw [if_neg (by omega),hok]
    simp [bind,Except.bind,hvalue]
  · exact absurd hcarries (hnot _ _ _ hheaded)

theorem extension_refused {response body e : List UInt8} (h : Framed Readable response body)
    (he : e ≠ []) (value : Json) : decodeRoborevHttp fromSlice (response ++ e) ≠ .ok value := by
  intro hok
  obtain ⟨h,raw,hvalid,-,hframes,rfl⟩ := h
  obtain ⟨-,framing,raw',bytes,hheaded,hcarries⟩ := decode_ok hok
  rw [List.append_assoc,List.append_assoc,headed_iff hvalid hframes] at hheaded
  obtain ⟨-,rfl,rfl,-⟩ := hheaded
  exact he (hframes.extend hcarries).1

theorem shortening_refused {p e body : List UInt8} (h : Framed Readable (p ++ e) body)
    (he : e ≠ []) (value : Json) : decodeRoborevHttp fromSlice p ≠ .ok value := by
  intro hok
  obtain ⟨h,raw,hvalid,-,hframes,hresponse⟩ := h
  obtain ⟨-,framing,raw',bytes,hheaded,hcarries⟩ := decode_ok hok
  have hextended := hheaded.extend e
  rw [hresponse,headed_iff hvalid hframes] at hextended
  obtain ⟨-,rfl,rfl,-⟩ := hextended
  exact he (hframes.shorten hcarries)

end

/-- Every framed response of UTF-8 lines within the size limit is decoded to its document, none is
accepted cut short or continued, and every decoding ends in a document or an error. -/
theorem framing_exact (fromSlice : List UInt8 → Option Json) :
    (∀ response body value, Framed Legible response body → response.length ≤ maxResponse →
      fromSlice body = some value → decodeRoborevHttp fromSlice response = .ok value) ∧
    (∀ response body e value, Framed (fun _ => True) response body → e ≠ [] →
      decodeRoborevHttp fromSlice (response ++ e) ≠ .ok value) ∧
    (∀ p e body value, Framed (fun _ => True) (p ++ e) body → e ≠ [] →
      decodeRoborevHttp fromSlice p ≠ .ok value) ∧
    ∀ response, (∃ value, decodeRoborevHttp fromSlice response = .ok value) ∨
      ∃ message, decodeRoborevHttp fromSlice response = .error (.error message) :=
  ⟨fun _ _ _ h hlength hvalue => decode_framed h hlength hvalue,
    fun _ _ _ value h he => extension_refused h he value,
    fun _ _ _ value h he => shortening_refused h he value,decode_ends fromSlice⟩

/-! ## Where the decoder is narrower than the grammar -/

/-- What is read as a document: an empty object behind spaces. -/
def braces (bytes : List UInt8) : Option Json :=
  if bytes.dropWhile (· = 32) = [123,125] then some (.obj []) else none

def chunkedField : Field := ⟨"Transfer-Encoding".toList,32 :: Utf8.encode "chunked".toList⟩
def lengthField : Field := ⟨"Content-Length".toList,32 :: Utf8.encode "16777218".toList⟩

def okReason : List UInt8 := [32,79,75]

def simpleHead (frame : Field) : Head where
  version := "HTTP/1.1".toList
  code := "200".toList
  reason := okReason
  front := []
  frame := frame
  back := []

theorem simpleHead_valid {frame : Field} (h : frame.Valid) : (simpleHead frame).Valid where
  version := .inr rfl
  code := .inl rfl
  reason := ⟨fun b hb => (Option.some.inj hb).symm,(by decide : 13 ∉ okReason),(by decide : 10 ∉ okReason)⟩
  front := fun f hf => nomatch hf
  frame := h
  back := fun f hf => nomatch hf

/-- A response of one chunk behind an extension. -/
def extended (ext : List UInt8) : List UInt8 :=
  (simpleHead chunkedField).bytes ++
    (blankLine ++ (50 :: (ext ++ (crlf ++ [123,125,13,10,48,13,10,13,10]))))

theorem extended_framed {Readable : List UInt8 → Prop} {ext : List UInt8}
    (hhead : Readable (simpleHead chunkedField).bytes) (hline : Readable (50::ext))
    (hend : Readable [48]) (hfirst : ∀ b ∈ ext.head?, b = 59) (hcr : 13 ∉ ext) (hlf : 10 ∉ ext) :
    Framed Readable (extended ext) [123,125] := by
  have hlast : Chunked (ChunkLine Readable) (TrailerLine Readable) [48,13,10,13,10] [] := by
    refine @Chunked.last _ _ _ [48] [13,10] ⟨rfl,rfl⟩ ?_ (.done ⟨rfl,rfl⟩)
    exact ⟨hend,['0'],[],rfl,⟨by decide,rfl⟩,fun b hb => absurd hb (Option.not_mem_none b),by decide,
      by decide⟩
  have hnot : 13 ∉ 50::ext := by simpa using hcr
  have hbefore : Delimited.before crlf (50 :: (ext ++ (crlf ++ [123,125,13,10,48,13,10,13,10]))) =
      some (50::ext) := by
    rw [← List.cons_append,crlf,Delimited.before_free hnot,List.cons_append,Delimited.before_self]
    simp
  refine ⟨simpleHead chunkedField,_,simpleHead_valid ⟨rfl,by decide,by decide⟩,hhead,?_,rfl⟩
  refine ⟨[32],"chunked".toList,[],rfl,fun b hb => .inl (List.mem_singleton.mp hb),
    fun b hb => absurd hb List.not_mem_nil,.inr ⟨rfl,rfl,?_⟩⟩
  refine @Chunked.chunk _ _ _ (50::ext) [123,125] [48,13,10,13,10] _ ⟨hbefore,rfl⟩ ?_
    (by decide) hlast
  exact ⟨hline,['2'],ext,rfl,⟨by decide,rfl⟩,hfirst,hcr,hlf⟩

theorem framing_exact_extended :
    decodeRoborevHttp braces (extended [59,120]) = .ok (.obj []) := by
  have hframed : Framed Legible (extended [59,120]) [123,125] :=
    extended_framed (by decide +kernel) (by decide +kernel) (by decide +kernel)
      (by simp) (by decide) (by decide)
  exact (framing_exact braces).1 _ _ _ hframed (by decide +kernel) rfl

/-- A document of more bytes than are taken. -/
def spaced : List UInt8 := List.replicate maxResponse 32 ++ [123,125]

def large : List UInt8 := (simpleHead lengthField).bytes ++ (blankLine ++ spaced)

theorem spaced_length : spaced.length = maxResponse + 2 := by
  rw [spaced,List.length_append,List.length_replicate]
  rfl

theorem spaced_braces : braces spaced = some (.obj []) := by
  have hspaces : ∀ b ∈ List.replicate maxResponse (32 : UInt8), decide (b = 32) = true :=
    fun b hb => decide_eq_true (List.mem_replicate.mp hb).2
  unfold braces spaced
  rw [List.dropWhile_append_of_pos hspaces]
  rfl

theorem large_framed : Framed Legible large spaced := by
  have hnumeral : Numeral 10 "16777218".toList spaced.length := by
    rw [spaced_length]
    exact ⟨by decide,rfl⟩
  have hframes : Frames Legible (simpleHead lengthField).frame spaced spaced :=
    ⟨[32],"16777218".toList,[],rfl,fun b hb => .inl (List.mem_singleton.mp hb),
      fun b hb => (nomatch hb),.inl ⟨rfl,hnumeral,rfl⟩⟩
  have hlegible : Legible (simpleHead lengthField).bytes := by decide +kernel
  exact ⟨simpleHead lengthField,spaced,simpleHead_valid ⟨rfl,by decide,by decide⟩,hlegible,hframes,
    rfl⟩

/-- An extension that is not UTF-8 has a framed response refused, and so has its size. -/
theorem framed_refused :
    (Framed (fun _ => True) (extended [59,255]) [123,125] ∧ braces [123,125] = some (.obj []) ∧
      decodeRoborevHttp braces (extended [59,255]) =
        .error (.error "incomplete or invalid local daemon HTTP framing")) ∧
    Framed Legible large spaced ∧ braces spaced = some (.obj []) ∧
    decodeRoborevHttp braces large = .error (.error "daemon response exceeded size limit") := by
  refine ⟨⟨extended_framed trivial trivial trivial (by simp) (by decide) (by decide),rfl,rfl⟩,
    large_framed,spaced_braces,?_⟩
  have hlong : maxResponse < large.length := by
    rw [large,List.length_append,List.length_append,spaced_length]
    omega
  exact if_pos hlong

end UnixFraming
end CanixToolbelt
