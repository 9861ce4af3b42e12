import CanixToolbelt.Delimited
import CanixToolbelt.JsonSource
import CanixToolbelt.Receipt

/-! The data of review comments: JSON in an HTML comment, cut out again at its end. -/
namespace CanixToolbelt
namespace Marker
open Effect Json Review Forge Receipt Fallible Delimited

/-! ## Derived readers -/

/-- What a derived reader takes for a struct: an object of known fields, none twice, or an array
of the fields in order. -/
def struct (names : List String) : Json → Bool
  | .obj fs => (fs.all fun f => f.1 ∈ names) && decide (fs.map Prod.fst).Nodup
  | .arr xs => xs.length ≤ names.length
  | _ => false

def member (names : List String) (v : Json) (k : String) : Option Json :=
  match v with
  | .obj fs => fs.lookup k
  | .arr xs => xs[names.idxOf k]?
  | _ => none

def asBool : Json → Option Bool
  | .bool b => some b
  | _ => none

/-- A `u32`. -/
def asU32 (v : Json) : Option ℕ := v.asU64.filter (· < 2^32)

/-- A required field that may be `null`. -/
def nullable {α : Type} (read : Json → Option α) : Json → Option (Option α)
  | .null => some none
  | v => (read v).map some

def list {α : Type} (read : Json → Option α) (v : Json) : Option (List α) := v.asArray.bind (·.mapM read)

def candidateFields : List String :=
  ["url","sourceRepository","sourceBranch","targetBranch","head","base","draft","open"]

def readCandidate (v : Json) : Option Candidate := do
  guard (struct candidateFields v)
  let url ← (member candidateFields v "url").bind asStr
  let sourceRepository ← (member candidateFields v "sourceRepository").bind asStr
  let sourceBranch ← (member candidateFields v "sourceBranch").bind asStr
  let targetBranch ← (member candidateFields v "targetBranch").bind asStr
  let head ← (member candidateFields v "head").bind asStr
  let base ← (member candidateFields v "base").bind asStr
  let draft ← (member candidateFields v "draft").bind asBool
  let isOpen ← (member candidateFields v "open").bind asBool
  pure ⟨url,sourceRepository,sourceBranch,targetBranch,head,base,draft,isOpen⟩

def intentFields : List String :=
  ["schemaVersion","id","candidate","policyDigest","baselineReviewIds"]

def readIntent (v : Json) : Option Intent := do
  guard (struct intentFields v)
  let schemaVersion ← (member intentFields v "schemaVersion").bind asU32
  let id ← (member intentFields v "id").bind asStr
  let candidate ← (member intentFields v "candidate").bind readCandidate
  let policyDigest ← (member intentFields v "policyDigest").bind asStr
  let baselineReviewIds ← (member intentFields v "baselineReviewIds").bind (list asStr)
  pure ⟨schemaVersion,id,candidate,policyDigest,baselineReviewIds⟩

/-- An exact finding of an exact review that a writer has disposed of. -/
structure Disposition where
  head : String
  base : String
  policyDigest : String
  reviewId : String
  findingId : String
  bodyDigest : String
  reason : String
  evidence : String
  deriving DecidableEq, Repr

def dispositionFields : List String :=
  ["head","base","policyDigest","reviewId","findingId","bodyDigest","reason","evidence"]

def Disposition.json (d : Disposition) : Json := .obj
  [("head",.str d.head),("base",.str d.base),("policyDigest",.str d.policyDigest),
    ("reviewId",.str d.reviewId),("findingId",.str d.findingId),("bodyDigest",.str d.bodyDigest),
    ("reason",.str d.reason),("evidence",.str d.evidence)]

def readDisposition (v : Json) : Option Disposition := do
  guard (struct dispositionFields v)
  let head ← (member dispositionFields v "head").bind asStr
  let base ← (member dispositionFields v "base").bind asStr
  let policyDigest ← (member dispositionFields v "policyDigest").bind asStr
  let reviewId ← (member dispositionFields v "reviewId").bind asStr
  let findingId ← (member dispositionFields v "findingId").bind asStr
  let bodyDigest ← (member dispositionFields v "bodyDigest").bind asStr
  let reason ← (member dispositionFields v "reason").bind asStr
  let evidence ← (member dispositionFields v "evidence").bind asStr
  pure ⟨head,base,policyDigest,reviewId,findingId,bodyDigest,reason,evidence⟩

def findingFields : List String := ["severity","problem","fix","location","sources"]

def readFinding (v : Json) : Option RoborevFinding := do
  guard (struct findingFields v)
  let severity ← (member findingFields v "severity").bind asStr
  let problem ← (member findingFields v "problem").bind asStr
  let fix ← (member findingFields v "fix").bind asStr
  let location ← (member findingFields v "location").bind (nullable asStr)
  let sources ← ((member findingFields v "sources").map (list asU64)).getD (some [])
  pure ⟨severity,problem,fix,location,sources⟩

def documentFields : List String :=
  ["schema_version","summary","verdict","findings","source_labels"]

def readDocument (v : Json) : Option RoborevDocument := do
  guard (struct documentFields v)
  let schemaVersion ← (member documentFields v "schema_version").bind asU32
  let summary ← (member documentFields v "summary").bind asStr
  let verdict ← (member documentFields v "verdict").bind asStr
  let findings ← (member documentFields v "findings").bind (list readFinding)
  let sourceLabels ← ((member documentFields v "source_labels").map (list asStr)).getD (some [])
  pure ⟨schemaVersion,summary,verdict,findings,sourceLabels⟩

def receiptFields : List String :=
  ["schemaVersion","requestId","candidate","policyDigest","jobId","reviewId","reviewedHead",
    "reviewedBase","status","completeFindings","document"]

def readReceipt (v : Json) : Option RoborevReceipt := do
  guard (struct receiptFields v)
  let schemaVersion ← (member receiptFields v "schemaVersion").bind asU32
  let requestId ← (member receiptFields v "requestId").bind asStr
  let candidate ← (member receiptFields v "candidate").bind readCandidate
  let policyDigest ← (member receiptFields v "policyDigest").bind asStr
  let jobId ← (member receiptFields v "jobId").bind (nullable asU64)
  let reviewId ← (member receiptFields v "reviewId").bind (nullable asU64)
  let reviewedHead ← (member receiptFields v "reviewedHead").bind asStr
  let reviewedBase ← (member receiptFields v "reviewedBase").bind asStr
  let status ← (member receiptFields v "status").bind asStr
  let completeFindings ← (member receiptFields v "completeFindings").bind asBool
  let document ← (member receiptFields v "document").bind (nullable readDocument)
  pure ⟨schemaVersion,requestId,candidate,policyDigest,jobId,reviewId,reviewedHead,reviewedBase,
    status,completeFindings,document⟩

/-! ## Comments -/

def requestMarker : String := "<!-- toolbelt-review-request:v1 "
def dispositionMarker : String := "<!-- toolbelt-review-disposition:v1 "

/-- The end of an HTML comment. -/
def closing : List Char := [' ','-','-','>']

def marker {α : Type} (read : Json → Option α) (body start : String) : Option α := do
  let rest ← stripPrefix start.toList body.toList
  let json ← before closing rest
  (source json).bind read

/-- A comment that carries `v` for machines and `note` for readers. -/
def comment (start : String) (v : Json) (note : String) : String :=
  start ++ String.ofList v.render ++ " -->" ++ note

/-- The request that the Greptile adapter posts. -/
def greptileRequest (i : Intent) : String :=
  comment requestMarker (intentJson i) ("\n\n@greptileai " ++
    (if i.candidate.draft then "review this draft" else "review this PR") ++
    "\n\nRequested head: `" ++ i.candidate.head ++ "`; observed target: `" ++ i.candidate.base ++
    "`. Review feedback is evidence for source triage.")

def roborevRequest (i : Intent) : String :=
  comment requestMarker (intentJson i)
    "\n\nRoborev coordinator request; exact comparison and policy are frozen in the intent."

def dispositionComment (d : Disposition) : String :=
  comment dispositionMarker d.json
    "\n\nEvidence-backed finding disposition recorded by the review CLI."

/-- The disposition that the command records for these arguments, if it accepts them. -/
def dispositionOf (platform : Platform) (candidate : Candidate) (policy : Policy)
    (review : Evaluation) (finding : Finding) (reason evidence : String) :
    Except Error Disposition := do
  require (¬ blank reason ∧ ¬ blank evidence)
    (.other "dispositions require nonempty reason and evidence")
  let digest ← policy.digest platform
  pure ⟨candidate.head,candidate.base,digest,review.id,finding.id,
    platform.hexDigest finding.body.toList,reason,evidence⟩

def issueComments (pr : PullRequest) : String :=
  "/repos/" ++ pr.repository ++ "/issues/" ++ toString pr.number ++ "/comments"

def disposition (web : Web) (candidate : Candidate) (policy : Policy) (review : Evaluation)
    (finding : Finding) (reason evidence : String) : Hub Unit := do
  let d ← checked (dispositionOf web.platform candidate policy review finding reason evidence)
  let pr ← checked (PullRequest.parse web candidate.url)
  let _ ← request web "POST" (issueComments pr)
    (some (.obj [("body",.str (dispositionComment d))]))
  pure ()

/-! ## Reading back what was written -/

theorem list_map {α : Type} {read : Json → Option α} {write : α → Json} {as : List α}
    (h : ∀ a ∈ as, read (write a) = some a) : list read (.arr (as.map write)) = some as := by
  change (as.map write).mapM read = some as
  induction as with
  | nil => rfl
  | cons a as ih =>
    rw [List.map_cons,List.mapM_cons,h a (by simp),ih fun b hb => h b (by simp [hb])]
    rfl

theorem asU32_nat {n : ℕ} (h : n < 2^32) : asU32 (.int n) = some n := by
  have hu : asU64 (.int n) = some n := if_pos (by omega)
  rw [asU32,hu]
  exact if_pos (decide_eq_true h)

theorem nullable_some {α : Type} {read : Json → Option α} {write : α → Json} {o : Option α}
    (hnull : ∀ a ∈ o, write a ≠ .null) (h : ∀ a ∈ o, read (write a) = some a) :
    nullable read (o.elim .null write) = some o := by
  cases o with
  | none => rfl
  | some a =>
    have hread := h a rfl
    unfold nullable
    split
    · rename_i heq
      exact absurd heq (hnull a rfl)
    · exact congrArg (Option.map some) hread

theorem readCandidate_json (c : Candidate) : readCandidate (candidateJson c) = some c := rfl

theorem readDisposition_json (d : Disposition) : readDisposition d.json = some d := rfl

theorem readIntent_json {i : Intent} (h : i.schemaVersion < 2^32) :
    readIntent (intentJson i) = some i := by
  have hstruct : struct intentFields (intentJson i) = true := rfl
  have hversion : (member intentFields (intentJson i) "schemaVersion").bind asU32 =
      some i.schemaVersion := asU32_nat h
  have hid : (member intentFields (intentJson i) "id").bind asStr = some i.id := rfl
  have hcandidate : (member intentFields (intentJson i) "candidate").bind readCandidate =
      some i.candidate := rfl
  have hpolicy : (member intentFields (intentJson i) "policyDigest").bind asStr =
      some i.policyDigest := rfl
  have hbaseline : (member intentFields (intentJson i) "baselineReviewIds").bind (list asStr) =
      some i.baselineReviewIds := list_map fun _ _ => rfl
  simp only [readIntent,hstruct,hversion,hid,hcandidate,hpolicy,hbaseline,guard,if_true]
  rfl

theorem candidate_written (c : Candidate) : Written 1 (candidateJson c) := by
  refine .obj fun f hf => ?_
  simp only [List.mem_cons,List.not_mem_nil,or_false] at hf
  rcases hf with rfl | rfl | rfl | rfl | rfl | rfl | rfl | rfl <;> constructor

theorem strings_written (d : ℕ) (xs : List String) : Written (d+1) (.arr (xs.map .str)) := by
  refine .arr fun x hx => ?_
  obtain ⟨s,-,rfl⟩ := List.mem_map.mp hx
  exact .str s

theorem nat_written {d n : ℕ} (h : n < 2^64) : Written d (.int n) := .int (by omega) (by omega)

theorem intent_written {i : Intent} (h : i.schemaVersion < 2^32) : Written 2 (intentJson i) := by
  refine .obj fun f hf => ?_
  simp only [List.mem_cons,List.not_mem_nil,or_false] at hf
  rcases hf with rfl | rfl | rfl | rfl | rfl
  · exact nat_written (by omega)
  · exact .str _
  · exact candidate_written _
  · exact .str _
  · exact strings_written 0 _

theorem disposition_written (d : Disposition) : Written 1 d.json := by
  refine .obj fun f hf => ?_
  simp only [List.mem_cons,List.not_mem_nil,or_false] at hf
  rcases hf with rfl | rfl | rfl | rfl | rfl | rfl | rfl | rfl <;> exact .str _

/-! ## Occurrences of the closing delimiter -/

mutual
/-- The texts that stand in a value, keys included. -/
def texts : Json → List String
  | .str s => [s]
  | .arr xs => textsOfItems xs
  | .obj fs => textsOfFields fs
  | _ => []
def textsOfItems : List Json → List String
  | [] => []
  | x::xs => texts x ++ textsOfItems xs
def textsOfFields : List (String × Json) → List String
  | [] => []
  | (k,x)::fs => k :: texts x ++ textsOfFields fs
end

/-- The text would end an HTML comment. -/
def closes (cs : List Char) : Prop := closing <:+: cs

instance (cs : List Char) : Decidable (closes cs) := inferInstanceAs (Decidable (closing <:+: cs))

theorem digitChar_open (d : ℕ) (hd : d < 16) : Nat.digitChar d ∉ closing := by
  have hnone : (closing.all fun c => (hexValue c).isNone) = true := by decide
  intro hmem
  have h := List.all_eq_true.mp hnone _ hmem
  rw [hexValue_digitChar d hd] at h
  cases h

theorem open_of_all (cs : List Char) (h : (cs.all fun c => !closing.contains c) = true) :
    ∀ c ∈ cs, c ∉ closing := by
  simpa using h

theorem escapeChar_spares : Spares closing escapeChar := by
  intro c
  by_cases hplain : escapeChar c = [c]
  · exact .inl hplain
  · right
    have hc : c ∉ closing := by
      intro hc
      simp only [closing,List.mem_cons,List.not_mem_nil,or_false] at hc
      rcases hc with rfl | rfl | rfl | rfl <;> exact hplain rfl
    unfold escapeChar at hplain ⊢
    split_ifs at hplain ⊢ with h₁ h₂ h₃ h₄ h₅ h₆ h₇ h₈
    all_goals first
      | exact absurd rfl hplain
      | exact ⟨hc,by simp,open_of_all _ rfl⟩
      | skip
    refine ⟨hc,by simp,fun x hx => ?_⟩
    have hhead := open_of_all ['\\','u','0','0'] rfl
    simp only [List.mem_cons,List.not_mem_nil,or_false] at hx
    rcases hx with rfl | rfl | rfl | rfl | rfl | rfl
    · exact hhead _ (by simp)
    · exact hhead _ (by simp)
    · exact hhead _ (by simp)
    · exact hhead _ (by simp)
    · exact digitChar_open _ (by omega)
    · exact digitChar_open _ (Nat.mod_lt _ (by omega))

theorem closes_string (s : String) : closes (renderString s) ↔ closes s.toList := by
  have hquote : '"' ∉ closing := by decide
  unfold closes renderString
  rw [infix_append_cons (a := '"' :: s.toList.flatMap escapeChar) hquote,
    show '"' :: s.toList.flatMap escapeChar = [] ++ '"' :: s.toList.flatMap escapeChar from rfl,
    infix_append_cons hquote,infix_flatMap escapeChar_spares (by decide)]
  simp [closing]

/-- A text without blanks closes nothing. -/
theorem not_closes {cs : List Char} (h : ' ' ∉ cs) : ¬ closes cs :=
  fun hc => h (hc.subset (by decide))

theorem decimal_open (n : ℕ) : ' ' ∉ decimal n := by
  intro h
  exact absurd (decimal_isDigit n ' ' h) (by decide)

/-- A structural character keeps occurrences on either side. -/
theorem closes_split {a b : List Char} {c : Char} (hc : c ∉ closing) :
    closes (a ++ c::b) ↔ closes a ∨ closes b := infix_append_cons hc

theorem closes_cons {c : Char} (hc : c ∉ closing) (b : List Char) : closes (c::b) ↔ closes b := by
  have h := closes_split (a := []) (b := b) hc
  rw [List.nil_append] at h
  rw [h]
  exact or_iff_right (by decide)

theorem closes_last {a : List Char} {c : Char} (hc : c ∉ closing) : closes (a ++ [c]) ↔ closes a := by
  rw [closes_split hc]
  exact or_iff_left (by decide)

theorem closes_items {xs : List Json}
    (h : ∀ x ∈ xs, (closes (render x) ↔ ∃ s ∈ texts x, closes s.toList)) :
    closes (renderItems xs) ↔ ∃ s ∈ textsOfItems xs, closes s.toList := by
  induction xs with
  | nil => simpa [renderItems,textsOfItems] using (by decide : ¬ closes [']'])
  | cons x xs ih =>
    have hx := h x (by simp)
    have hxs := ih fun y hy => h y (by simp [hy])
    have hall : closes (renderItems (x::xs)) ↔ closes (render x) ∨ closes (renderItems xs) := by
      cases xs with
      | nil =>
        have hnil : ¬ closes (renderItems []) := by decide
        have hone : renderItems [x] = render x ++ [']'] := by rw [renderItems]
        rw [hone,closes_last (by decide)]
        exact (or_iff_left hnil).symm
      | cons y ys => exact closes_split (by decide)
    rw [hall,hx,hxs,textsOfItems]
    simp only [List.mem_append,or_and_right,exists_or]

theorem closes_fields {fs : List (String × Json)}
    (h : ∀ f ∈ fs, (closes (render f.2) ↔ ∃ s ∈ texts f.2, closes s.toList)) :
    closes (renderFields fs) ↔ ∃ s ∈ textsOfFields fs, closes s.toList := by
  induction fs with
  | nil => simpa [renderFields,textsOfFields] using (by decide : ¬ closes ['}'])
  | cons f fs ih =>
    obtain ⟨k,x⟩ := f
    have hx := h (k,x) (by simp)
    have hfs := ih fun y hy => h y (by simp [hy])
    have hall : closes (renderFields ((k,x)::fs)) ↔
        closes k.toList ∨ closes (render x) ∨ closes (renderFields fs) := by
      cases fs with
      | nil =>
        have hnil : ¬ closes (renderFields []) := by decide
        have hone : renderFields [(k,x)] = renderString k ++ ':' :: (render x ++ ['}']) := by
          simp [renderFields]
        rw [hone,closes_split (by decide),closes_string,closes_last (by decide)]
        exact or_congr_right (or_iff_left hnil).symm
      | cons g gs =>
        have hmore : renderFields ((k,x)::g::gs) =
            renderString k ++ ':' :: (render x ++ ',' :: renderFields (g::gs)) := by
          simp [renderFields]
        rw [hmore,closes_split (by decide),closes_string,closes_split (by decide)]
    rw [hall,hx,hfs,textsOfFields]
    simp only [List.cons_append,List.mem_cons,List.mem_append,or_and_right,exists_or,
      exists_eq_left]

/-- A printed value closes a comment exactly when one of its texts does. -/
theorem closes_render {d : ℕ} {v : Json} (h : Written d v) :
    closes (render v) ↔ ∃ s ∈ texts v, closes s.toList := by
  induction h with
  | null => simp [texts,render,not_closes]
  | bool b => cases b <;> simp [texts,render,not_closes]
  | @int d n hl hu =>
    have hopen : ' ' ∉ render (.int n) := by
      cases n with
      | ofNat n => exact decimal_open n
      | negSucc n => simpa [render] using decimal_open (n+1)
    simp [texts,not_closes hopen]
  | str s => simp [texts,render,closes_string]
  | @arr d xs hx ih =>
    rw [render,closes_cons (by decide),texts]
    exact closes_items ih
  | @obj d fs hx ih =>
    rw [render,closes_cons (by decide),texts]
    exact closes_fields ih

theorem renderFields_last (fs : List (String × Json)) : ∃ t, renderFields fs = t ++ ['}'] := by
  induction fs with
  | nil => exact ⟨[],by rw [renderFields]; rfl⟩
  | cons f fs ih =>
    obtain ⟨k,x⟩ := f
    cases fs with
    | nil => exact ⟨renderString k ++ ':' :: render x,by simp [renderFields]⟩
    | cons g gs =>
      obtain ⟨t,ht⟩ := ih
      refine ⟨renderString k ++ ':' :: (render x ++ ',' :: t),?_⟩
      have hmore : renderFields ((k,x)::g::gs) =
          renderString k ++ ':' :: (render x ++ ',' :: renderFields (g::gs)) := by
        simp [renderFields]
      rw [hmore,ht]
      simp

/-! ## Decoding a comment -/

theorem marker_comment {α : Type} (read : Json → Option α) (start : String) (v : Json)
    (note : String) : marker read (comment start v note) start =
      (before closing (v.render ++ (closing ++ note.toList))).bind fun json =>
        (source json).bind read := by
  have hbody : (comment start v note).toList =
      start.toList ++ (v.render ++ (closing ++ note.toList)) := by
    simp [comment,closing]
  unfold marker
  rw [hbody,stripPrefix_append]
  rfl

theorem marker_other {α : Type} (read : Json → Option α) {start other : String} (v : Json)
    (note : String) (h : ¬ other.toList <+: (comment start v note).toList) :
    marker read (comment start v note) other = none := by
  unfold marker stripPrefix
  rw [if_neg (by rwa [List.isPrefixOf_iff_prefix])]
  rfl

/-- The object in a comment is decoded exactly when none of its texts closes the comment, and
nothing else is decoded in its place. -/
theorem marker_iff {α : Type} {read : Json → Option α} {a : α} {fs : List (String × Json)}
    (hread : read (.obj fs) = some a) (hfs : Written 127 (.obj fs)) (start note : String) :
    (marker read (comment start (.obj fs) note) start = some a ↔
      ∀ s ∈ texts (.obj fs), ¬ closes s.toList) ∧
    ∀ b, marker read (comment start (.obj fs) note) start = some b → b = a := by
  have hlast : ∀ x ∈ (render (.obj fs)).getLast?, x ∉ closing := by
    obtain ⟨t,ht⟩ := renderFields_last fs
    have hobject : render (.obj fs) = ('{' :: t) ++ ['}'] := by
      rw [render,ht]
      rfl
    intro x hx
    rw [hobject,List.getLast?_concat] at hx
    obtain rfl := Option.some.inj hx
    decide
  rw [marker_comment]
  by_cases hcloses : closes (render (.obj fs))
  · obtain ⟨c,d,hc,hcd,hd⟩ := before_infix (by decide) hcloses (closing ++ note.toList)
    rw [hc,Option.bind_some, source_prefix hfs hcd hd]
    have hsome := (closes_render hfs).mp hcloses
    obtain ⟨s,hs,hin⟩ := hsome
    refine ⟨?_,fun b hb => by cases hb⟩
    exact iff_of_false (by simp) fun hall => hall s hs hin
  · rw [before_append hlast hcloses,Option.bind_some,source_render hfs,Option.bind_some,hread]
    refine ⟨⟨fun _ s hs hin => hcloses ((closes_render hfs).mpr ⟨s,hs,hin⟩),fun _ => rfl⟩,?_⟩
    exact fun b hb => (Option.some.inj hb).symm

/-- The texts of an intent. -/
def intentTexts (i : Intent) : List String :=
  [i.id,i.candidate.url,i.candidate.sourceRepository,i.candidate.sourceBranch,
    i.candidate.targetBranch,i.candidate.head,i.candidate.base,i.policyDigest] ++ i.baselineReviewIds

def Disposition.texts (d : Disposition) : List String :=
  [d.head,d.base,d.policyDigest,d.reviewId,d.findingId,d.bodyDigest,d.reason,d.evidence]

/-- No text of these ends an HTML comment. -/
def Open (texts : List String) : Prop := ∀ s ∈ texts, ¬ closes s.toList

theorem textsOfItems_strings (xs : List String) : textsOfItems (xs.map .str) = xs := by
  induction xs with
  | nil => rfl
  | cons x xs ih =>
    rw [List.map_cons,textsOfItems,ih]
    simp [texts]

/-- The keys of an intent and of its candidate, and those of a disposition. -/
def keys : List String := intentFields ++ candidateFields ++ dispositionFields

theorem keys_open : Open keys := by
  have h : ∀ s ∈ keys, ¬ closes s.toList := by decide
  exact h

theorem intent_texts (i : Intent) {s : String} (h : s ∈ texts (intentJson i)) :
    s ∈ keys ∨ s ∈ intentTexts i := by
  simp only [intentJson,candidateJson,texts,textsOfFields,textsOfItems_strings,List.cons_append,
    List.nil_append,List.append_nil,List.mem_cons] at h
  simp only [keys,intentFields,candidateFields,intentTexts,List.cons_append,List.nil_append,
    List.mem_cons]
  tauto

theorem intentTexts_subset (i : Intent) : intentTexts i ⊆ texts (intentJson i) := by
  intro s hs
  simp only [intentTexts,List.cons_append,List.nil_append,List.mem_cons] at hs
  simp only [intentJson,candidateJson,texts,textsOfFields,textsOfItems_strings,List.cons_append,
    List.nil_append,List.append_nil,List.mem_cons]
  tauto

theorem disposition_texts (d : Disposition) {s : String} (h : s ∈ texts d.json) :
    s ∈ keys ∨ s ∈ d.texts := by
  simp only [Disposition.json,Marker.texts,textsOfFields,List.cons_append,List.nil_append,
    List.mem_cons,List.not_mem_nil,or_false] at h
  simp only [keys,dispositionFields,Disposition.texts,List.mem_append,List.mem_cons,
    List.not_mem_nil,or_false]
  tauto

theorem dispositionTexts_subset (d : Disposition) : d.texts ⊆ texts d.json := by
  intro s hs
  simp only [Disposition.texts,List.mem_cons,List.not_mem_nil,or_false] at hs
  simp only [Disposition.json,Marker.texts,textsOfFields,List.cons_append,List.nil_append,
    List.mem_cons,List.not_mem_nil,or_false]
  tauto

/-- Keys close nothing, so that a value is as open as the texts it carries. -/
theorem open_iff {v : Json} {carried : List String} (hsub : carried ⊆ texts v)
    (hall : ∀ s ∈ texts v, s ∈ keys ∨ s ∈ carried) : Open (texts v) ↔ Open carried :=
  ⟨fun h s hs => h s (hsub hs),
    fun h s hs => (hall s hs).elim (keys_open s) (h s)⟩

/-- Hexadecimal text closes nothing. -/
theorem hex_open {s : String} (h : s.toList.all hexDigit = true) : ¬ closes s.toList := by
  refine not_closes fun hmem => ?_
  exact absurd (List.all_eq_true.mp h ' ' hmem) (by decide)

/-- Comments with different starts are different comments. -/
theorem starts_differ {start other : String} {n : ℕ} (hother : n ≤ other.toList.length)
    (hstart : n ≤ start.toList.length) (hne : other.toList.take n ≠ start.toList.take n) (v : Json)
    (note : String) : ¬ other.toList <+: (comment start v note).toList := by
  have htoList : (comment start v note).toList =
      start.toList ++ (v.render ++ (closing ++ note.toList)) := by simp [comment,closing]
  rw [htoList]
  rintro ⟨t,h⟩
  have htake := congrArg (List.take n) h
  rw [List.take_append_of_le_length hother,List.take_append_of_le_length hstart] at htake
  exact hne htake

/-- Requests and dispositions are not taken for each other. -/
theorem marks_differ (v : Json) (note : String) :
    ¬ dispositionMarker.toList <+: (comment requestMarker v note).toList ∧
      ¬ requestMarker.toList <+: (comment dispositionMarker v note).toList := by
  have hlength : 24 ≤ requestMarker.toList.length ∧ 24 ≤ dispositionMarker.toList.length := by decide
  have hne : requestMarker.toList.take 24 ≠ dispositionMarker.toList.take 24 := by decide
  exact ⟨starts_differ hlength.2 hlength.1 hne.symm v note,starts_differ hlength.1 hlength.2 hne v note⟩

theorem digest_hex {platform : Platform}
    (hhex : ∀ cs, (platform.hexDigest cs).toList.all hexDigit = true) {policy : Policy}
    {digest : String} (h : policy.digest platform = .ok digest) :
    digest.toList.all hexDigit = true := by
  unfold Policy.digest at h
  cases hvalid : policy.validate with
  | error e =>
    rw [hvalid] at h
    cases h
  | ok u =>
    rw [hvalid] at h
    obtain rfl := Except.ok.inj h
    exact hhex _

/-- A comment is decoded as the intent or the disposition that was written exactly when no text
of it ends the HTML comment, and never as another. -/
theorem comments_round_trip {platform : Platform}
    (hhex : ∀ cs, (platform.hexDigest cs).toList.all hexDigit = true) :
    (∀ i : Intent, i.schemaVersion < 2^32 → ∀ body ∈ [greptileRequest i,roborevRequest i],
      (marker readIntent body requestMarker = some i ↔ Open (intentTexts i)) ∧
      (∀ j, marker readIntent body requestMarker = some j → j = i) ∧
      marker readDisposition body dispositionMarker = none) ∧
    ∀ candidate policy review finding reason evidence d,
      dispositionOf platform candidate policy review finding reason evidence = .ok d →
      (marker readDisposition (dispositionComment d) dispositionMarker = some d ↔
        Open [candidate.head,candidate.base,review.id,finding.id,reason,evidence]) ∧
      (∀ e, marker readDisposition (dispositionComment d) dispositionMarker = some e → e = d) ∧
      marker readIntent (dispositionComment d) requestMarker = none := by
  constructor
  · intro i hi body hbody
    have hround : ∀ note, (marker readIntent (comment requestMarker (intentJson i) note)
        requestMarker = some i ↔ Open (intentTexts i)) ∧
        (∀ j, marker readIntent (comment requestMarker (intentJson i) note) requestMarker = some j →
          j = i) ∧
        marker readDisposition (comment requestMarker (intentJson i) note) dispositionMarker =
          none := by
      intro note
      have h := marker_iff (readIntent_json hi) ((intent_written hi).mono (by omega)) requestMarker note
      refine ⟨?_,h.2,marker_other _ _ _ (marks_differ _ note).1⟩
      rw [← open_iff (intentTexts_subset i) fun s hs => intent_texts i hs]
      exact h.1
    simp only [List.mem_cons,List.not_mem_nil,or_false] at hbody
    rcases hbody with rfl | rfl
    · exact hround _
    · exact hround _
  · intro candidate policy review finding reason evidence d hd
    obtain ⟨⟨⟩,-,hd⟩ := bind_ok hd
    obtain ⟨digest,hdigest,hd⟩ := bind_ok hd
    obtain rfl := Except.ok.inj hd
    set d : Disposition := ⟨candidate.head,candidate.base,digest,review.id,finding.id,
      platform.hexDigest finding.body.toList,reason,evidence⟩
    have h := marker_iff (readDisposition_json d) ((disposition_written d).mono (by omega))
      dispositionMarker "\n\nEvidence-backed finding disposition recorded by the review CLI."
    refine ⟨?_,h.2,marker_other _ _ _ (marks_differ _ _).2⟩
    -- the digests are hexadecimal, so they never end the comment
    have hdigests : Open d.texts ↔
        Open [candidate.head,candidate.base,review.id,finding.id,reason,evidence] := by
      have hpolicy := hex_open (digest_hex hhex hdigest)
      have hbody := hex_open (hhex finding.body.toList)
      simp [Open,Disposition.texts,d,hpolicy,hbody]
    rw [← hdigests,← open_iff (dispositionTexts_subset d) fun s hs => disposition_texts d hs]
    exact h.1

/-! A finding disposed of, with and without a comment quoted in the reason. -/

def quotedPolicy : Policy := ⟨1,"greptile","github-comment",165735046,[]⟩

/-- SHA-256 of the policy, and of the finding. -/
def quotedPlatform : Platform where
  hexDigest := fun text =>
    if text = quotedPolicy.json.render then
      "f38924a51e438153cff1ced0daa706af57fd72d358679fd16ba3eb69c5947da9"
    else "69447208174bdb81310f8619bcfcf1bc995a4c587fd505b0d10de8734caed076"
  canonicalUrl := fun _ => true

def quotedCandidate : Candidate :=
  ⟨"https://github.com/example/project/pull/12","example/project","topic","main",
    "0123456789012345678901234567890123456789","9876543210987654321098765432109876543210",false,true⟩

def quotedFinding : Finding :=
  ⟨"77","This comment is never closed.",some "README.md",some 3,none,false,true,
    "https://github.com/example/project/pull/12#discussion_r77"⟩

def quotedReview : Evaluation :=
  ⟨"42",none,none,"greptile",some quotedCandidate.head,some quotedCandidate.base,none,
    "f38924a51e438153cff1ced0daa706af57fd72d358679fd16ba3eb69c5947da9",true,true,[quotedFinding],
    "https://github.com/example/project/pull/12#pullrequestreview-42"⟩

def quotedIntent : Intent := ⟨1,"request-1",quotedCandidate,
  "f38924a51e438153cff1ced0daa706af57fd72d358679fd16ba3eb69c5947da9",["41"]⟩

/-- What is recorded of the finding for this reason. -/
def quoted (reason : String) : Disposition :=
  ⟨quotedCandidate.head,quotedCandidate.base,
    "f38924a51e438153cff1ced0daa706af57fd72d358679fd16ba3eb69c5947da9","42","77",
    "69447208174bdb81310f8619bcfcf1bc995a4c587fd505b0d10de8734caed076",reason,"README.md:3"⟩

theorem quotedPlatform_hex (cs : List Char) :
    (quotedPlatform.hexDigest cs).toList.all hexDigit = true := by
  simp only [quotedPlatform]
  split <;> decide

theorem quoted_recorded :
    marker readIntent (greptileRequest quotedIntent) requestMarker = some quotedIntent ∧
      marker readDisposition (dispositionComment (quoted "It is closed on line 4."))
        dispositionMarker = some (quoted "It is closed on line 4.") :=
  ⟨((comments_round_trip quotedPlatform_hex).1 quotedIntent (by decide) _ (by simp)).1.mpr
      (by have h : ∀ s ∈ intentTexts quotedIntent, ¬ closes s.toList := by decide +kernel
          exact h),
    ((comments_round_trip quotedPlatform_hex).2 quotedCandidate quotedPolicy quotedReview quotedFinding
      "It is closed on line 4." "README.md:3" (quoted "It is closed on line 4.") (by decide +kernel)).1.mpr
      (by have h : ∀ s ∈ [quotedCandidate.head,quotedCandidate.base,"42","77",
            "It is closed on line 4.","README.md:3"], ¬ closes s.toList := by decide +kernel
          exact h)⟩

/-- The reason quotes the end of a comment: the disposition is accepted and cannot be read. -/
theorem quoted_lost :
    dispositionOf quotedPlatform quotedCandidate quotedPolicy quotedReview quotedFinding
      "It is closed: <!-- see --> on line 4." "README.md:3" =
        .ok (quoted "It is closed: <!-- see --> on line 4.") ∧
      marker readDisposition (dispositionComment (quoted "It is closed: <!-- see --> on line 4."))
        dispositionMarker = none := by
  refine ⟨by decide +kernel,?_⟩
  have h := marker_iff (readDisposition_json (quoted "It is closed: <!-- see --> on line 4."))
    ((disposition_written _).mono (by omega)) dispositionMarker
    "\n\nEvidence-backed finding disposition recorded by the review CLI."
  have hcloses : closes "It is closed: <!-- see --> on line 4.".toList := by decide +kernel
  refine Option.eq_none_iff_forall_ne_some.mpr fun b hb => ?_
  rw [h.2 b hb] at hb
  refine h.1.mp hb _ (dispositionTexts_subset _ ?_) hcloses
  simp [Disposition.texts,quoted]

end Marker
end CanixToolbelt
