import CanixToolbelt.Delimited
import CanixToolbelt.Fallible
import CanixToolbelt.Json
import CanixToolbelt.Numerals
import CanixToolbelt.Text
import CanixToolbelt.Utf8

/-! One complete connection-close response of the local daemon: the head, and a body framed by
its length or in chunks. Slices and sums are those of the machine, and stop where it would. -/
namespace CanixToolbelt
namespace UnixHttp
open Fallible Numerals Text

/-- How a decoding ends early: with an error, or not at all as the source intends. -/
inductive Stop where
  | error (message : String)
  | outOfRange
  | overflow
  | unfinished
  deriving DecidableEq, Repr

abbrev Parse := Except Stop

def invalid {α : Type} : Parse α :=
  .error (.error "incomplete or invalid local daemon HTTP framing")

def usizeBound : ℕ := 2^64
def maxResponse : ℕ := 16 * 1024 * 1024

def add (a b : ℕ) : Parse ℕ := if a + b < usizeBound then .ok (a + b) else .error .overflow

def slice (bytes : List UInt8) (start stop : ℕ) : Parse (List UInt8) :=
  if start ≤ stop ∧ stop ≤ bytes.length then .ok ((bytes.drop start).take (stop - start))
  else .error .outOfRange

def sliceFrom (bytes : List UInt8) (start : ℕ) : Parse (List UInt8) :=
  if start ≤ bytes.length then .ok (bytes.drop start) else .error .outOfRange

def crlf : List UInt8 := [13,10]
def blankLine : List UInt8 := [13,10,13,10]

/-- Where the first occurrence begins. -/
def position (delim bytes : List UInt8) : Option ℕ :=
  (Delimited.before delim bytes).map List.length

/-! ## The head -/

def headerChar (c : Char) : Bool :=
  c.isAlphanum || c ∈ "!#$%&'*+-.^_`|~".toList

def validHeaderName (name : List Char) : Bool := name ≠ [] && name.all headerChar

def contentLength (name : List Char) : Bool := lower name = "content-length".toList
def transferEncoding (name : List Char) : Bool := lower name = "transfer-encoding".toList

/-- The length declared so far, and whether the body is chunked. -/
abbrev Framing := Option ℕ × Bool

def header (framing : Framing) (line : List Char) : Parse Framing :=
  match splitOnce ':' line with
  | none => invalid
  | some (name,value) =>
    if !validHeaderName name then invalid
    else if contentLength name then
      if framing.1.isSome then invalid
      else match fromStrRadix 10 usizeBound (trim value) with
      | .ok n => .ok (some n,framing.2)
      | .error _ => invalid
    else if transferEncoding name then
      if framing.2 || lower (trim value) ≠ "chunked".toList then invalid
      else .ok (framing.1,true)
    else .ok framing

def status (line : List Char) : Parse Unit :=
  match splitWhitespace line with
  | version::code::_ =>
    if version ≠ "HTTP/1.0".toList ∧ version ≠ "HTTP/1.1".toList then invalid
    else if code ≠ "200".toList ∧ code ≠ "201".toList then
      .error (.error "roborev local API returned a non-success status; response body omitted")
    else .ok ()
  | _ => invalid

def head (headers : List Char) : Parse Framing :=
  match splitCrlf headers with
  | [] => invalid
  | line::lines => do
    status line
    lines.foldlM header (none,false)

/-! ## Chunks -/

def trailer (line : List UInt8) : Parse Unit :=
  match (Utf8.decode line).bind (splitOnce ':') with
  | none => invalid
  | some (name,_) =>
    if !validHeaderName name || contentLength name || transferEncoding name then invalid
    else .ok ()

section
variable (raw : List UInt8)

/-- A line from the cursor on, and the cursor behind its end. -/
def line (cursor : ℕ) : Parse (List UInt8 × ℕ) := do
  let rest ← sliceFrom raw cursor
  match position crlf rest with
  | none => invalid
  | some p => do
    let stop ← add p cursor
    let text ← slice raw cursor stop
    let cursor ← add stop 2
    .ok (text,cursor)

/-- The cursor behind the trailers and the empty line that ends them. -/
def trailers : ℕ → ℕ → Parse ℕ
  | 0, _ => .error .unfinished
  | n+1, cursor => do
    let (text,cursor) ← line raw cursor
    if text = [] then .ok cursor
    else do
      trailer text
      trailers n cursor

/-- The size in front of the extensions of a chunk. -/
def chunkSize (text : List UInt8) : Parse ℕ :=
  match Utf8.decode text with
  | none => invalid
  | some cs =>
    match fromStrRadix 16 usizeBound (cs.takeWhile (· ≠ ';')) with
    | .ok size => .ok size
    | .error _ => invalid

def chunks : ℕ → ℕ → List UInt8 → Parse (List UInt8)
  | 0, _, _ => .error .unfinished
  | n+1, cursor, decoded => do
    let (text,cursor) ← line raw cursor
    let size ← chunkSize text
    if size = 0 then do
      let cursor ← trailers raw (raw.length + 1) cursor
      if cursor ≠ raw.length then invalid else .ok decoded
    else if usizeBound ≤ cursor + size then invalid
    else if usizeBound ≤ cursor + size + 2 ∨ raw.length < cursor + size + 2 then invalid
    else do
      let mark ← slice raw (cursor + size) (cursor + size + 2)
      if mark ≠ crlf then invalid
      else do
        let data ← slice raw cursor (cursor + size)
        let cursor ← add (cursor + size) 2
        chunks n cursor (decoded ++ data)

def body (framing : Framing) : Parse (List UInt8) :=
  if framing.2 then
    if framing.1.isSome then invalid else chunks raw (raw.length + 1) 0 []
  else if framing.1.any (· ≠ raw.length) then invalid
  else .ok raw

end

/-! ## Responses -/

/-- The bytes of the document that a response carries. -/
def document (response : List UInt8) : Parse (List UInt8) :=
  match position blankLine response with
  | none => invalid
  | some split => do
    let headers ← slice response 0 split
    match Utf8.decode headers with
    | none => invalid
    | some headers => do
      let framing ← head headers
      let start ← add split 4
      let raw ← sliceFrom response start
      body raw framing

/-- `decode_roborev_http`, by what parses a document. -/
def decodeRoborevHttp (fromSlice : List UInt8 → Option Json) (response : List UInt8) : Parse Json :=
  if maxResponse < response.length then .error (.error "daemon response exceeded size limit")
  else do
    let document ← document response
    match fromSlice document with
    | none => .error (.error "invalid roborev local API document")
    | some value => .ok value

/-! ## What the loops read -/

/-- The first line of some bytes, and what follows its end. -/
def Line (text bytes rest : List UInt8) : Prop :=
  Delimited.before crlf bytes = some text ∧ bytes = text ++ (crlf ++ rest)

section
variable (Size : List UInt8 → ℕ → Prop) (Field : List UInt8 → Prop)

/-- Trailers and the empty line behind them, and what follows that. -/
inductive Trailed : List UInt8 → List UInt8 → Prop
  | done {bytes rest : List UInt8} : Line [] bytes rest → Trailed bytes rest
  | next {bytes text rest last : List UInt8} : Line text bytes rest → text ≠ [] → Field text →
      Trailed rest last → Trailed bytes last

/-- Chunks up to the end of the bytes, and the body that they carry. -/
inductive Chunked : List UInt8 → List UInt8 → Prop
  | last {bytes text rest : List UInt8} : Line text bytes rest → Size text 0 →
      Trailed Field rest [] → Chunked bytes []
  | chunk {bytes text data rest body : List UInt8} : Line text bytes (data ++ (crlf ++ rest)) →
      Size text data.length → data ≠ [] → Chunked rest body → Chunked bytes (data ++ body)

end

theorem Line.unique {text text' bytes rest rest' : List UInt8} (h : Line text bytes rest)
    (h' : Line text' bytes rest') : text = text' ∧ rest = rest' := by
  obtain rfl := Option.some.inj (h.1.symm.trans h'.1)
  refine ⟨rfl,?_⟩
  have heq := h.2.symm.trans h'.2
  simpa using heq

theorem Line.extend {text bytes rest : List UInt8} (h : Line text bytes rest) (e : List UInt8) :
    Line text (bytes ++ e) (rest ++ e) :=
  ⟨Delimited.before_extend h.1 e,by rw [h.2]; simp⟩

theorem Line.length {text bytes rest : List UInt8} (h : Line text bytes rest) :
    bytes.length = text.length + (2 + rest.length) := by
  rw [h.2,List.length_append,List.length_append]
  rfl

theorem exists_line {text bytes : List UInt8} (h : Delimited.before crlf bytes = some text) :
    ∃ rest, Line text bytes rest := by
  obtain ⟨rest,hrest⟩ := Delimited.before_some h
  exact ⟨rest,h,hrest⟩

section
variable {Size Size' : List UInt8 → ℕ → Prop} {Field Field' : List UInt8 → Prop}

theorem Trailed.inv {bytes text rest last : List UInt8} (h : Trailed Field bytes last)
    (hline : Line text bytes rest) :
    (text = [] ∧ last = rest) ∨ (text ≠ [] ∧ Field text ∧ Trailed Field rest last) := by
  cases h with
  | done hline' =>
    obtain ⟨rfl,rfl⟩ := hline'.unique hline
    exact .inl ⟨rfl,rfl⟩
  | next hline' hne hok hrest =>
    obtain ⟨rfl,rfl⟩ := hline'.unique hline
    exact .inr ⟨hne,hok,hrest⟩

theorem Chunked.inv {bytes text rest body : List UInt8} (h : Chunked Size Field bytes body)
    (hline : Line text bytes rest) :
    (Size text 0 ∧ Trailed Field rest [] ∧ body = []) ∨
      ∃ data behind body', rest = data ++ (crlf ++ behind) ∧ Size text data.length ∧
        data ≠ [] ∧ Chunked Size Field behind body' ∧ body = data ++ body' := by
  cases h with
  | last hline' hzero htrailed =>
    obtain ⟨rfl,rfl⟩ := hline'.unique hline
    exact .inl ⟨hzero,htrailed,rfl⟩
  | chunk hline' hsize hne hrest =>
    obtain ⟨rfl,rfl⟩ := hline'.unique hline
    exact .inr ⟨_,_,_,rfl,hsize,hne,hrest,rfl⟩

theorem Trailed.imp {bytes rest : List UInt8} (hfield : ∀ text, Field text → Field' text)
    (h : Trailed Field bytes rest) : Trailed Field' bytes rest := by
  induction h with
  | done hline => exact .done hline
  | next hline hne hok _ ih => exact .next hline hne (hfield _ hok) ih

/-- Sizes are compared up to that of the bytes themselves. -/
theorem Chunked.imp {bytes body : List UInt8} (h : Chunked Size Field bytes body)
    (hsize : ∀ text n, n ≤ bytes.length → Size text n → Size' text n)
    (hfield : ∀ text, Field text → Field' text) : Chunked Size' Field' bytes body := by
  induction h with
  | last hline hzero htrailed =>
    exact .last hline (hsize _ 0 (Nat.zero_le _) hzero) (htrailed.imp hfield)
  | chunk hline hn hne _ ih =>
    have hlength := hline.length
    simp only [List.length_append] at hlength
    refine .chunk hline (hsize _ _ (by omega) hn) hne (ih fun text n hle => hsize text n ?_)
    omega

/-- Trailers are read the same with more behind them. -/
theorem Trailed.extend {bytes rest e rest' : List UInt8} (h : Trailed Field bytes rest)
    (h' : Trailed Field' (bytes ++ e) rest') : rest' = rest ++ e := by
  induction h with
  | done hline =>
    rcases h'.inv (hline.extend e) with ⟨-,hlast⟩ | ⟨hne,-⟩
    · exact hlast
    · exact absurd rfl hne
  | next hline hne _ _ ih =>
    rcases h'.inv (hline.extend e) with ⟨hempty,-⟩ | ⟨-,-,hrest⟩
    · exact absurd hempty hne
    · exact ih hrest

/-- A chunked body does not go on and is one body, as long as no line has two sizes. -/
theorem Chunked.extend {bytes body e body' : List UInt8}
    (hsame : ∀ text n n', Size text n → Size' text n' → n = n')
    (h : Chunked Size Field bytes body) (h' : Chunked Size' Field' (bytes ++ e) body') :
    e = [] ∧ body' = body := by
  induction h generalizing body' with
  | last hline hzero htrailed =>
    rcases h'.inv (hline.extend e) with ⟨-,htrailed',hbody⟩ | ⟨data,_,_,-,hsize,hne,-⟩
    · exact ⟨by simpa using (htrailed.extend htrailed').symm,hbody⟩
    · exact absurd (List.length_eq_zero_iff.mp (hsame _ _ _ hzero hsize).symm) hne
  | chunk hline hsize hne _ ih =>
    rcases h'.inv (hline.extend e) with ⟨hzero,-⟩ | ⟨data,behind,_,hrest,hsize',-,hbehind,hbody⟩
    · exact absurd (List.length_eq_zero_iff.mp (hsame _ _ _ hsize hzero)) hne
    · rw [List.append_assoc,List.append_assoc] at hrest
      obtain ⟨rfl,hrests⟩ := List.append_inj hrest (hsame _ _ _ hsize hsize')
      rw [List.append_cancel_left_eq] at hrests
      obtain ⟨hend,hsame'⟩ := ih (hrests ▸ hbehind)
      exact ⟨hend,by rw [hbody,hsame']⟩

end

/-- The sizes and the trailers that the decoder takes. -/
def SizeRead (text : List UInt8) (n : ℕ) : Prop := chunkSize text = .ok n
def TrailerRead (text : List UInt8) : Prop := trailer text = .ok ()

section
variable {raw : List UInt8}

theorem slice_ok {start stop : ℕ} (h : start ≤ stop) (hstop : stop ≤ raw.length) :
    slice raw start stop = .ok ((raw.drop start).take (stop - start)) := if_pos ⟨h,hstop⟩

theorem add_ok {a b : ℕ} (h : a + b < usizeBound) : add a b = .ok (a + b) := if_pos h

/-- The next line is read as it stands, and the cursor moved behind it; or there is none. -/
theorem line_cases (hbound : raw.length < usizeBound) {cursor : ℕ} (hcursor : cursor ≤ raw.length) :
    (∃ text rest, Line text (raw.drop cursor) rest ∧
      line raw cursor = .ok (text,cursor + text.length + 2) ∧
      raw.drop (cursor + text.length + 2) = rest ∧ cursor + text.length + 2 ≤ raw.length) ∨
    ((∀ text rest, ¬ Line text (raw.drop cursor) rest) ∧ line raw cursor = invalid) := by
  cases hbefore : Delimited.before crlf (raw.drop cursor) with
  | none =>
    refine .inr ⟨fun text rest h => ?_,?_⟩
    · have hsome := h.1
      rw [hbefore] at hsome
      cases hsome
    · simp [line,sliceFrom,hcursor,position,hbefore,bind,Except.bind]
  | some text =>
    obtain ⟨rest,hline⟩ := exists_line hbefore
    have hlength : (raw.drop cursor).length = text.length + (2 + rest.length) := by
      rw [hline.2,List.length_append,List.length_append]
      rfl
    rw [List.length_drop] at hlength
    have hdrop : raw.drop (cursor + text.length + 2) = rest := by
      rw [Nat.add_assoc,← List.drop_drop,hline.2,← List.drop_drop,List.drop_left]
      rfl
    refine .inl ⟨text,rest,hline,?_,hdrop,by omega⟩
    have htake : (raw.drop cursor).take (text.length + cursor - cursor) = text := by
      rw [hline.2,Nat.add_sub_cancel,List.take_left]
    have hposition : position crlf (raw.drop cursor) = some text.length := by
      simp [position,hbefore]
    unfold line
    refine bind_ok_iff.mpr ⟨raw.drop cursor,if_pos hcursor,?_⟩
    simp only [hposition]
    refine bind_ok_iff.mpr ⟨text.length + cursor,add_ok (by omega),?_⟩
    refine bind_ok_iff.mpr ⟨text,?_,?_⟩
    · rw [slice_ok (by omega) (by omega),htake]
    · refine bind_ok_iff.mpr ⟨text.length + cursor + 2,add_ok (by omega),?_⟩
      rw [Nat.add_comm text.length]

theorem trailer_error {text : List UInt8} {e : Stop} (h : trailer text = .error e) :
    (.error e : Parse ℕ) = invalid := by
  unfold trailer at h
  split at h
  · cases h
    rfl
  · split at h
    · cases h
      rfl
    · cases h

theorem chunkSize_error {text : List UInt8} {e : Stop} (h : chunkSize text = .error e) :
    (.error e : Parse (List UInt8)) = invalid := by
  unfold chunkSize at h
  split at h
  · cases h
    rfl
  · split at h
    · cases h
    · cases h
      rfl

/-- The trailers are read as they stand, or refused. -/
theorem trailers_cases (hbound : raw.length < usizeBound) (n : ℕ) {cursor : ℕ}
    (hcursor : cursor ≤ raw.length) (hfuel : raw.length - cursor < n) :
    (∃ last, Trailed TrailerRead (raw.drop cursor) (raw.drop last) ∧
      trailers raw n cursor = .ok last ∧ last ≤ raw.length) ∨
    ((∀ rest, ¬ Trailed TrailerRead (raw.drop cursor) rest) ∧ trailers raw n cursor = invalid) := by
  induction n generalizing cursor with
  | zero => omega
  | succ n ih =>
    unfold trailers
    rcases line_cases hbound hcursor with ⟨text,rest,hline,hread,hdrop,hnext⟩ | ⟨hnone,hread⟩
    · rw [hread]
      simp only [bind,Except.bind]
      by_cases hempty : text = []
      · subst hempty
        rw [if_pos rfl]
        exact .inl ⟨_,.done (hdrop ▸ hline),rfl,hnext⟩
      · rw [if_neg hempty]
        cases htrailer : trailer text with
        | error e =>
          refine .inr ⟨fun last h => ?_,trailer_error htrailer⟩
          rcases h.inv hline with ⟨h,-⟩ | ⟨-,hok,-⟩
          · exact hempty h
          · rw [TrailerRead,htrailer] at hok
            cases hok
        | ok u =>
          rcases ih hnext (by omega) with ⟨last,htrailed,hok,hlast⟩ | ⟨hnot,herror⟩
          · rw [hdrop] at htrailed
            exact .inl ⟨last,.next hline hempty htrailer htrailed,hok,hlast⟩
          · refine .inr ⟨fun last h => ?_,herror⟩
            rcases h.inv hline with ⟨h,-⟩ | ⟨-,-,htrailed⟩
            · exact hempty h
            · exact hnot last (hdrop ▸ htrailed)
    · rw [hread]
      refine .inr ⟨fun last h => ?_,rfl⟩
      cases h with
      | done hline => exact hnone _ _ hline
      | next hline => exact hnone _ _ hline

/-- The last chunk ends the bytes with its trailers. -/
theorem last_cases (hbound : raw.length < usizeBound) {cursor : ℕ} (decoded : List UInt8)
    (hcursor : cursor ≤ raw.length) :
    (Trailed TrailerRead (raw.drop cursor) [] ∧ (do
      let cursor ← trailers raw (raw.length + 1) cursor
      if cursor ≠ raw.length then invalid else .ok decoded) = .ok decoded) ∨
    (¬ Trailed TrailerRead (raw.drop cursor) [] ∧ (do
      let cursor ← trailers raw (raw.length + 1) cursor
      if cursor ≠ raw.length then invalid else .ok decoded) = invalid) := by
  rcases trailers_cases hbound (raw.length + 1) hcursor (by omega) with
    ⟨last,htrailed,hok,hlast⟩ | ⟨hnot,herror⟩
  · rw [hok]
    simp only [bind,Except.bind]
    by_cases hend : last = raw.length
    · rw [hend,List.drop_length] at htrailed
      exact .inl ⟨htrailed,if_neg (not_not.mpr hend)⟩
    · refine .inr ⟨fun h => hend ?_,if_pos hend⟩
      have hsame := htrailed.extend (e := []) (by simpa using h)
      have hlength := congrArg List.length hsame
      simp at hlength
      omega
  · rw [herror]
    exact .inr ⟨hnot [],rfl⟩

/-- A chunk's data is followed by the end of its line, or refused. -/
theorem data_cases (hbound : raw.length < usizeBound) {cursor : ℕ} (size : ℕ)
    (hcursor : cursor ≤ raw.length) (k : List UInt8 → ℕ → Parse (List UInt8)) :
    let read : Parse (List UInt8) :=
      if usizeBound ≤ cursor + size then invalid
      else if usizeBound ≤ cursor + size + 2 ∨ raw.length < cursor + size + 2 then invalid
      else do
        let mark ← slice raw (cursor + size) (cursor + size + 2)
        if mark ≠ crlf then invalid
        else do
          let data ← slice raw cursor (cursor + size)
          let cursor ← add (cursor + size) 2
          k data cursor
    (∃ data, raw.drop cursor = data ++ (crlf ++ raw.drop (cursor + size + 2)) ∧
      data.length = size ∧ cursor + size + 2 ≤ raw.length ∧ read = k data (cursor + size + 2)) ∨
    ((∀ data rest, raw.drop cursor = data ++ (crlf ++ rest) → data.length ≠ size) ∧
      read = invalid) := by
  have hlong {data rest : List UInt8} (h : raw.drop cursor = data ++ (crlf ++ rest))
      (hsize : data.length = size) : cursor + size + 2 ≤ raw.length := by
    have hlength := congrArg List.length h
    simp only [List.length_drop,List.length_append,crlf,List.length_cons,List.length_nil] at hlength
    omega
  intro read
  by_cases hin : cursor + size + 2 ≤ raw.length
  · have hread : read = if (raw.drop (cursor + size)).take 2 ≠ crlf then invalid
        else k ((raw.drop cursor).take size) (cursor + size + 2) := by
      simp only [read]
      rw [if_neg (by omega),if_neg (by omega),slice_ok (by omega) hin,
        slice_ok (by omega) (by omega),add_ok (by omega),Nat.add_sub_cancel_left,
        Nat.add_sub_cancel_left]
      rfl
    rw [hread]
    by_cases hmark : (raw.drop (cursor + size)).take 2 = crlf
    · rw [if_neg (not_not.mpr hmark)]
      refine .inl ⟨_,?_,?_,hin,rfl⟩
      · have hbehind : raw.drop (cursor + size + 2) = ((raw.drop cursor).drop size).drop 2 := by
          rw [List.drop_drop,List.drop_drop,Nat.add_assoc]
        rw [hbehind,← hmark,← List.drop_drop,List.take_append_drop,List.take_append_drop]
      · simp only [List.length_take,List.length_drop]
        omega
    · rw [if_pos hmark]
      refine .inr ⟨fun data rest h hsize => hmark ?_,rfl⟩
      rw [← List.drop_drop,h,← hsize,List.drop_left]
      rfl
  · refine .inr ⟨fun data rest h hsize => hin (hlong h hsize),?_⟩
    simp only [read]
    split_ifs with h₁ h₂
    · rfl
    · rfl
    · omega

/-- The chunks are read as they stand, or refused: no cursor leaves the bytes, no sum overflows
and the loop comes to its end. -/
theorem chunks_cases (hbound : raw.length < usizeBound) (n : ℕ) {cursor : ℕ} (decoded : List UInt8)
    (hcursor : cursor ≤ raw.length) (hfuel : raw.length - cursor < n) :
    (∃ body, Chunked SizeRead TrailerRead (raw.drop cursor) body ∧
      chunks raw n cursor decoded = .ok (decoded ++ body)) ∨
    ((∀ body, ¬ Chunked SizeRead TrailerRead (raw.drop cursor) body) ∧
      chunks raw n cursor decoded = invalid) := by
  induction n generalizing cursor decoded with
  | zero => omega
  | succ n ih =>
    unfold chunks
    rcases line_cases hbound hcursor with ⟨text,rest,hline,hread,hdrop,hnext⟩ | ⟨hnone,hread⟩
    · rw [hread]
      simp only [bind,Except.bind]
      cases hsize : chunkSize text with
      | error e =>
        refine .inr ⟨fun body h => ?_,chunkSize_error hsize⟩
        rcases h.inv hline with ⟨h,-⟩ | ⟨_,_,_,-,h,-⟩ <;>
        · rw [SizeRead,hsize] at h
          cases h
      | ok size =>
        simp only
        by_cases hzero : size = 0
        · subst hzero
          rw [if_pos rfl]
          rcases last_cases hbound decoded hnext with ⟨htrailed,hok⟩ | ⟨hnot,herror⟩
          · rw [hdrop] at htrailed
            refine .inl ⟨[],.last hline hsize htrailed,?_⟩
            rw [List.append_nil]
            exact hok
          · refine .inr ⟨fun body h => ?_,herror⟩
            rcases h.inv hline with ⟨-,htrailed,-⟩ | ⟨data,_,_,-,h,hne,-⟩
            · exact hnot (hdrop ▸ htrailed)
            · rw [SizeRead,hsize] at h
              exact hne (List.length_eq_zero_iff.mp (Except.ok.inj h).symm)
        · rw [if_neg hzero]
          rcases data_cases hbound size hnext
            (fun data cursor => chunks raw n cursor (decoded ++ data)) with
            ⟨data,hdata,hlength,hin,hok⟩ | ⟨hnot,herror⟩
          · rw [hdrop] at hdata
            have hne : data ≠ [] := fun h => hzero (by rw [← hlength,h]; rfl)
            have hdatas : chunkSize text = .ok data.length := by rw [hsize,hlength]
            have hfuel' : raw.length - (cursor + text.length + 2 + size + 2) < n := by omega
            have hline' := hdata ▸ hline
            rcases ih (decoded ++ data) hin hfuel' with ⟨body,hbody,hread'⟩ | ⟨hnot,herror⟩
            · refine .inl ⟨data ++ body,.chunk hline' hdatas hne hbody,?_⟩
              rw [← List.append_assoc]
              exact hok.trans hread'
            · refine .inr ⟨fun body h => ?_,hok.trans herror⟩
              rcases h.inv hline with ⟨h,-⟩ | ⟨data',behind,body',hrest,h,-,hbehind,-⟩
              · rw [SizeRead,hsize] at h
                exact hzero (Except.ok.inj h)
              · have hsame := hdata.symm.trans hrest
                have hlengths := Except.ok.inj (hdatas.symm.trans h)
                obtain ⟨rfl,hrests⟩ := List.append_inj hsame hlengths
                rw [List.append_cancel_left_eq] at hrests
                exact hnot body' (hrests ▸ hbehind)
          · refine .inr ⟨fun body h => ?_,herror⟩
            rcases h.inv hline with ⟨h,-⟩ | ⟨data,behind,_,hrest,h,-⟩
            · rw [SizeRead,hsize] at h
              exact hzero (Except.ok.inj h)
            · rw [SizeRead,hsize] at h
              exact hnot data behind (hdrop ▸ hrest) (Except.ok.inj h).symm
    · rw [hread]
      refine .inr ⟨fun last h => ?_,rfl⟩
      cases h with
      | last hline => exact hnone _ _ hline
      | chunk hline => exact hnone _ _ hline

/-- The body that the bytes behind the head carry, by the framing that it declares. -/
def Carries (framing : Framing) (raw body : List UInt8) : Prop :=
  if framing.2 then framing.1 = none ∧ Chunked SizeRead TrailerRead raw body
  else (∀ n ∈ framing.1, n = raw.length) ∧ body = raw

theorem body_cases (hbound : raw.length < usizeBound) (framing : Framing) :
    (∃ bytes, Carries framing raw bytes ∧ body raw framing = .ok bytes) ∨
    ((∀ bytes, ¬ Carries framing raw bytes) ∧ body raw framing = invalid) := by
  obtain ⟨length,chunked⟩ := framing
  cases chunked with
  | true =>
    cases length with
    | some n => exact .inr ⟨fun bytes h => (nomatch h.1),rfl⟩
    | none =>
      rcases chunks_cases hbound (raw.length + 1) [] (Nat.zero_le _) (by omega) with
        ⟨bytes,hbytes,hok⟩ | ⟨hnot,herror⟩
      · exact .inl ⟨bytes,⟨rfl,hbytes⟩,hok⟩
      · exact .inr ⟨fun bytes h => hnot bytes h.2,herror⟩
  | false =>
    by_cases hall : ∀ n ∈ length, n = raw.length
    · refine .inl ⟨raw,⟨hall,rfl⟩,?_⟩
      cases length with
      | none => rfl
      | some n => simp [body,hall n rfl]
    · refine .inr ⟨fun bytes h => hall h.1,?_⟩
      cases length with
      | none => exact absurd (fun n hn => (nomatch hn)) hall
      | some n =>
        have hn : n ≠ raw.length := fun heq => hall fun m hm => by cases hm; exact heq
        simp [body,hn]

end

/-! ## Whole responses -/

/-- The framing that the head of a response declares, and the bytes behind the head. -/
def Headed (response : List UInt8) (framing : Framing) (raw : List UInt8) : Prop :=
  ∃ headers text, Delimited.before blankLine response = some headers ∧
    response = headers ++ (blankLine ++ raw) ∧ Utf8.decode headers = some text ∧
    head text = .ok framing

theorem Headed.unique {response raw raw' : List UInt8} {framing framing' : Framing}
    (h : Headed response framing raw) (h' : Headed response framing' raw') :
    framing = framing' ∧ raw = raw' := by
  obtain ⟨headers,text,hbefore,hresponse,htext,hhead⟩ := h
  obtain ⟨headers',text',hbefore',hresponse',htext',hhead'⟩ := h'
  obtain rfl := Option.some.inj (hbefore.symm.trans hbefore')
  obtain rfl := Option.some.inj (htext.symm.trans htext')
  refine ⟨Except.ok.inj (hhead.symm.trans hhead'),?_⟩
  rw [hresponse] at hresponse'
  simpa using hresponse'

theorem Headed.extend {response raw : List UInt8} {framing : Framing}
    (h : Headed response framing raw) (e : List UInt8) :
    Headed (response ++ e) framing (raw ++ e) := by
  obtain ⟨headers,text,hbefore,hresponse,htext,hhead⟩ := h
  refine ⟨headers,text,Delimited.before_extend hbefore e,?_,htext,hhead⟩
  rw [hresponse]
  simp

theorem status_told {line : List Char} {e : Stop} (h : status line = .error e) :
    ∃ message, e = .error message := by
  unfold status at h
  split at h
  · split at h
    · cases h
      exact ⟨_,rfl⟩
    · split at h
      · cases h
        exact ⟨_,rfl⟩
      · cases h
  · cases h
    exact ⟨_,rfl⟩

theorem header_told {framing : Framing} {line : List Char} {e : Stop}
    (h : header framing line = .error e) : ∃ message, e = .error message := by
  unfold header at h
  split at h
  · cases h
    exact ⟨_,rfl⟩
  · split_ifs at h
    all_goals first
      | (cases h; exact ⟨_,rfl⟩)
      | skip
    split at h
    · cases h
    · cases h
      exact ⟨_,rfl⟩

theorem headers_told {lines : List (List Char)} {framing : Framing} {e : Stop}
    (h : lines.foldlM header framing = .error e) : ∃ message, e = .error message := by
  induction lines generalizing framing with
  | nil => cases h
  | cons line lines ih =>
    rw [List.foldlM_cons] at h
    cases hline : header framing line with
    | error e' =>
      rw [hline] at h
      cases h
      exact header_told hline
    | ok framing' =>
      rw [hline] at h
      exact ih h

theorem head_told {text : List Char} {e : Stop} (h : head text = .error e) :
    ∃ message, e = .error message := by
  unfold head at h
  split at h
  · cases h
    exact ⟨_,rfl⟩
  · rename_i line lines _
    cases hstatus : status line with
    | error e' =>
      rw [hstatus] at h
      cases h
      exact status_told hstatus
    | ok u =>
      rw [hstatus] at h
      exact headers_told h

/-- The document of a response is the body that its framing carries, or none is taken. -/
theorem document_cases {response : List UInt8} (hbound : response.length < usizeBound) :
    (∃ framing raw bytes, Headed response framing raw ∧ Carries framing raw bytes ∧
      document response = .ok bytes) ∨
    ((∀ framing raw bytes, Headed response framing raw → ¬ Carries framing raw bytes) ∧
      ∃ message, document response = .error (.error message)) := by
  unfold document
  cases hbefore : Delimited.before blankLine response with
  | none =>
    refine .inr ⟨fun framing raw bytes h => ?_,"incomplete or invalid local daemon HTTP framing",?_⟩
    · obtain ⟨_,_,hsome,_⟩ := h
      rw [hbefore] at hsome
      cases hsome
    · simp only [position,hbefore]
      rfl
  | some headers =>
    obtain ⟨raw,hresponse⟩ := Delimited.before_some hbefore
    have hlength : response.length = headers.length + (4 + raw.length) := by
      rw [hresponse,List.length_append,List.length_append]
      rfl
    have hslice : slice response 0 headers.length = .ok headers := by
      rw [slice_ok (Nat.zero_le _) (by omega),List.drop_zero,Nat.sub_zero,hresponse,List.take_left]
    have hdrop : response.drop (headers.length + 4) = raw := by
      rw [← List.drop_drop,hresponse,List.drop_left]
      rfl
    have hfrom : sliceFrom response (headers.length + 4) = .ok raw := by
      rw [sliceFrom,if_pos (by omega),hdrop]
    simp only [position,hbefore,Option.map_some,hslice,bind,Except.bind,add_ok (a := headers.length)
      (b := 4) (by omega),hfrom]
    cases htext : Utf8.decode headers with
    | none =>
      refine .inr ⟨fun framing raw bytes h => ?_,_,rfl⟩
      obtain ⟨headers',text,hsome,-,htext',-⟩ := h
      obtain rfl := Option.some.inj (hbefore.symm.trans hsome)
      rw [htext] at htext'
      cases htext'
    | some text =>
      simp only
      cases hhead : head text with
      | error e =>
        obtain ⟨message,rfl⟩ := head_told hhead
        refine .inr ⟨fun framing raw bytes h => ?_,message,rfl⟩
        obtain ⟨headers',text',hsome,-,htext',hhead'⟩ := h
        obtain rfl := Option.some.inj (hbefore.symm.trans hsome)
        obtain rfl := Option.some.inj (htext.symm.trans htext')
        rw [hhead] at hhead'
        cases hhead'
      | ok framing =>
        have hheaded : Headed response framing raw :=
          ⟨headers,text,hbefore,hresponse,htext,hhead⟩
        rcases @body_cases raw (by omega) framing with ⟨bytes,hbytes,hok⟩ | ⟨hnot,herror⟩
        · exact .inl ⟨framing,raw,bytes,hheaded,hbytes,hok⟩
        · refine .inr ⟨fun framing' raw' bytes h => ?_,_,herror⟩
          obtain ⟨rfl,rfl⟩ := hheaded.unique h
          exact hnot bytes

end UnixHttp
end CanixToolbelt
