import Mathlib.Data.List.ReduceOption
import CanixToolbelt.NixComments
import CanixToolbelt.Delimited
import CanixToolbelt.Text

/-! Plugin versions and the vendor hash of Caddy edited in Nix sources.  Every slice of the source
may fail as it may panic there. -/
namespace CanixToolbelt
namespace CaddyPlugins

open Substrings NixComments

def pluginsMarker : List Char := "caddy.plugins".toList
def hashMarker : List Char := "caddy.pluginsHash".toList

/-- How the literals of plugins begin. -/
def literalMarker : List Char := "\"github.com/".toList

structure Plugin where
  file : String
  module : List Char
  version : List Char
  deriving DecidableEq, Repr

def trimStart (cs : List Char) : List Char := cs.dropWhile Review.whitespace

/-- The range of the value that an assignment of the name matched at `start` has, if it is one. -/
def valueRange (source name : List Char) (opens closes : Char) (start : ℕ) :
    Option (Option (ℕ × ℕ)) := do
  let rest ← sliceFrom source (start + size name)
  some <| do
    let rest ← Delimited.stripPrefix ['='] (trimStart rest)
    let value ← Delimited.stripPrefix [opens] (trimStart rest)
    let first := size source - size value
    let length ← find closes value
    some (first,first + length)

def assignmentValues (source name : List Char) (opens closes : Char) : Option (List (ℕ × ℕ)) := do
  let source ← maskComments source
  let found ← (matchIndices name 0 0 source).mapM (valueRange source name opens closes)
  some found.reduceOption

/-- The plugin of the literal that opens at `start`, if it is one. -/
def pluginAt (file : String) (list : List Char) (start : ℕ) : Option (Option Plugin) := do
  let literal ← sliceFrom list (start + 1)
  match find '"' literal with
  | none => some none
  | some stop =>
    let text ← slice literal 0 stop
    some <| do
      let (module,version) ← Text.splitOnce '@' text
      if version.isEmpty then none else some ⟨file,module,version⟩

/-- The plugins of one list. -/
def listPlugins (file : String) (list : List Char) : Option (List Plugin) := do
  let found ← (matchIndices literalMarker 0 0 list).mapM (pluginAt file list)
  some found.reduceOption

def extractPlugins (source : List Char) (file : String) : Option (List Plugin) := do
  let source ← maskComments source
  let ranges ← assignmentValues source pluginsMarker '[' ']'
  let lists ← ranges.mapM fun r => slice source r.1 r.2
  let plugins ← lists.mapM (listPlugins file)
  some plugins.flatten

/-- The source with the text `value` gives in the place of every range, copied from the left. -/
def splice (source : List Char) (value : ℕ × ℕ → Option (List Char)) (ranges : List (ℕ × ℕ)) :
    Option (List Char) := do
  let (out,copied) ← ranges.foldlM (fun (out,copied) range => do
    let gap ← slice source copied range.1
    let text ← value range
    some (out ++ gap ++ text,range.2)) (([] : List Char),0)
  let rest ← sliceFrom source copied
  some (out ++ rest)

/-- The quoted literal of a module at a version. -/
def literal (module version : List Char) : List Char :=
  '"' :: (module ++ '@' :: version) ++ ['"']

def bumpVersion (source module old new : List Char) : Option (List Char) := do
  let ranges ← assignmentValues source pluginsMarker '[' ']'
  splice source (fun range => do
    let text ← slice source range.1 range.2
    some (replace (literal module old) (literal module new) 0 text)) ranges

def setPluginsHash (source hash : List Char) : Option (List Char × ℕ) := do
  let ranges ← assignmentValues source hashMarker '"' '"'
  let out ← splice source (fun _ => some hash) ranges
  some (out,ranges.length)

/-! ## Assignments -/

/-- The symbols that an assignment is read by. -/
structure Form (α : Type) where
  blank : α → Bool
  name : List α
  equal : α
  opens : α
  closes : α

section Assignments
variable {α : Type} [DecidableEq α] (f : Form α)

theorem strip_none {p cs : List α} (h : ¬ p <+: cs) : Delimited.stripPrefix p cs = none :=
  if_neg fun hp => h (List.isPrefixOf_iff_prefix.mp hp)

/-- The text behind the opening delimiter of the assignment a text begins with. -/
def behind (es : List α) : Option (List α) := do
  let rest ← Delimited.stripPrefix f.name es
  let rest ← Delimited.stripPrefix [f.equal] (rest.dropWhile f.blank)
  Delimited.stripPrefix [f.opens] (rest.dropWhile f.blank)

/-- The text behind the opening delimiter, and its part before the closing one. -/
def assigned (es : List α) : Option (List α × List α) := do
  let rest ← behind f es
  if f.closes ∈ rest then some (rest,rest.takeWhile (· ≠ f.closes)) else none

/-- What an assignment begins with, up to its opening delimiter. -/
def Opener (w : List α) : Prop := ∃ s t, w = f.name ++ (s ++ f.equal :: (t ++ [f.opens])) ∧
  (∀ e ∈ s, f.blank e = true) ∧ ∀ e ∈ t, f.blank e = true

variable {f}

theorem behind_append (hequal : f.blank f.equal = false) (hopens : f.blank f.opens = false)
    {w : List α} (hw : Opener f w) (r : List α) : behind f (w ++ r) = some r := by
  obtain ⟨s,t,rfl,hs,ht⟩ := hw
  have hdrop {a : α} {u v : List α} (ha : f.blank a = false) (hu : ∀ e ∈ u, f.blank e = true) :
      (u ++ a::v).dropWhile f.blank = a::v := by
    rw [List.dropWhile_append_of_pos hu,List.dropWhile_cons_of_neg (by simp [ha])]
  have hstrip (a : α) (v : List α) : Delimited.stripPrefix [a] (a::v) = some v :=
    Delimited.stripPrefix_append [a] v
  unfold behind
  simp only [List.append_assoc,List.cons_append,List.nil_append,Delimited.stripPrefix_append,
    Option.bind_eq_bind,Option.bind_some]
  rw [hdrop hequal hs,hstrip,Option.bind_some,hdrop hopens ht,hstrip]

theorem behind_some {es r : List α} (h : behind f es = some r) : ∃ w, es = w ++ r ∧ Opener f w := by
  unfold behind at h
  simp only [Option.bind_eq_bind,Option.bind_eq_some_iff] at h
  obtain ⟨a,ha,b,hb,hr⟩ := h
  have hes := Delimited.stripPrefix_some ha
  have hequal := Delimited.stripPrefix_some hb
  have hopens := Delimited.stripPrefix_some hr
  have hblank (u : List α) : ∀ e ∈ u.takeWhile f.blank, f.blank e = true := fun e he =>
    List.all_eq_true.mp List.all_takeWhile e he
  refine ⟨f.name ++ (a.takeWhile f.blank ++ f.equal :: (b.takeWhile f.blank ++ [f.opens])),?_,
    _,_,rfl,hblank a,hblank b⟩
  have hsplit : a = a.takeWhile f.blank ++ f.equal :: (b.takeWhile f.blank ++ f.opens :: r) := by
    calc a = a.takeWhile f.blank ++ a.dropWhile f.blank := (List.takeWhile_append_dropWhile ..).symm
      _ = a.takeWhile f.blank ++ f.equal :: (b.takeWhile f.blank ++ b.dropWhile f.blank) := by
        rw [hequal,List.takeWhile_append_dropWhile]
        rfl
      _ = _ := by rw [hopens]; rfl
  rw [hes]
  nth_rewrite 1 [hsplit]
  simp

theorem assigned_iff (hequal : f.blank f.equal = false) (hopens : f.blank f.opens = false)
    {es r v : List α} : assigned f es = some (r,v) ↔
      ∃ w z, es = w ++ r ∧ Opener f w ∧ r = v ++ f.closes::z ∧ f.closes ∉ v := by
  have htake {v z : List α} (hv : f.closes ∉ v) :
      (v ++ f.closes::z).takeWhile (· ≠ f.closes) = v := by
    have hne : ∀ e ∈ v, decide (e ≠ f.closes) = true := fun e he => by
      simpa using fun heq : e = f.closes => hv (heq ▸ he)
    rw [List.takeWhile_append_of_pos hne]
    simp
  unfold assigned
  constructor
  · intro h
    obtain ⟨r',hbehind,h⟩ := Option.bind_eq_some_iff.mp h
    split at h
    · rename_i hmem
      obtain ⟨rfl,rfl⟩ := Prod.mk.inj (Option.some.inj h)
      obtain ⟨w,rfl,hw⟩ := behind_some hbehind
      obtain ⟨v,z,hr,hv⟩ := List.eq_append_cons_of_mem hmem
      refine ⟨w,z,rfl,hw,?_,?_⟩
      · nth_rewrite 1 [hr]
        rw [hr,htake hv]
      · rw [hr,htake hv]
        exact hv
    · cases h
  · rintro ⟨w,z,rfl,hw,rfl,hv⟩
    rw [behind_append hequal hopens hw,Option.bind_eq_bind,Option.bind_some,if_pos (by simp),htake hv]

end Assignments

/-! ## Assignments of a marked text -/

abbrev Mark := Char × Bool

def kept (cs : List Char) : List Mark := cs.map (·,false)

/-- The symbols an assignment is read by in a masked text. -/
def textForm (name : List Char) (opens closes : Char) : Form Char :=
  ⟨Review.whitespace,name,'=',opens,closes⟩

/-- The same symbols where the marks of the text are kept. -/
def markForm (name : List Char) (opens closes : Char) : Form Mark :=
  ⟨fun e => e.2 || Review.whitespace e.1,kept name,('=',false),(opens,false),(closes,false)⟩

/-- A character that no mask puts in. -/
def Visible (c : Char) : Prop := c ≠ ' ' ∧ c ≠ '\n'

@[simp] theorem masked_kept (cs : List Char) : masked (kept cs) = cs := by
  induction cs with
  | nil => rfl
  | cons c cs ih =>
    rw [kept,List.map_cons,masked_cons,shown_kept,← kept,ih]
    rfl

@[simp] theorem raw_kept (cs : List Char) : raw (kept cs) = cs := by
  simp [raw,kept,Function.comp_def]

theorem visible_prefix {p : List Char} (hp : ∀ c ∈ p, Visible c) {es : List Mark}
    (h : p <+: masked es) : ∃ r, es = kept p ++ r := by
  induction p generalizing es with
  | nil => exact ⟨es,rfl⟩
  | cons c p ih =>
    cases es with
    | nil => cases List.prefix_nil.mp h
    | cons e es =>
      obtain ⟨d,b⟩ := e
      cases b with
      | false =>
        rw [masked_cons,shown_kept,List.singleton_append] at h
        obtain ⟨rfl,hrest⟩ := List.cons_prefix_cons.mp h
        obtain ⟨r,rfl⟩ := ih (fun x hx => hp x (List.mem_cons_of_mem _ hx)) hrest
        exact ⟨r,rfl⟩
      | true =>
        obtain ⟨x,xs,hx,hxs⟩ := shown_blanked d
        rw [masked_cons,hx] at h
        obtain ⟨rfl,-⟩ := List.cons_prefix_cons.mp h
        exact (hxs c (by simp)).elim (fun hc => ((hp c (by simp)).1 hc).elim)
          fun hc => ((hp c (by simp)).2 hc).elim

theorem strip_masked {p : List Char} (hp : ∀ c ∈ p, Visible c) (es : List Mark) :
    Delimited.stripPrefix p (masked es) = (Delimited.stripPrefix (kept p) es).map masked := by
  by_cases h : p <+: masked es
  · obtain ⟨r,rfl⟩ := visible_prefix hp h
    rw [masked_append,masked_kept,Delimited.stripPrefix_append,Delimited.stripPrefix_append]
    rfl
  · have hmark : ¬ kept p <+: es := by
      rintro ⟨r,rfl⟩
      exact h ⟨masked r,by rw [masked_append,masked_kept]⟩
    rw [strip_none h,strip_none hmark]
    rfl

theorem blank_white {c : Char} (h : c = ' ' ∨ c = '\n') : Review.whitespace c = true := by
  rcases h with rfl | rfl <;> rfl

theorem trim_masked (name : List Char) (opens closes : Char) (es : List Mark) :
    (masked es).dropWhile (textForm name opens closes).blank =
      masked (es.dropWhile (markForm name opens closes).blank) := by
  induction es with
  | nil => rfl
  | cons e es ih =>
    obtain ⟨d,b⟩ := e
    cases b with
    | false =>
      rw [masked_cons,shown_kept,List.singleton_append]
      cases hd : Review.whitespace d with
      | true =>
        rw [List.dropWhile_cons_of_pos (show (textForm name opens closes).blank d = true from hd),
          List.dropWhile_cons_of_pos (show (markForm name opens closes).blank (d,false) = true from hd)]
        exact ih
      | false =>
        rw [List.dropWhile_cons_of_neg
            (show ¬ (textForm name opens closes).blank d = true by simp [textForm,hd]),
          List.dropWhile_cons_of_neg
            (show ¬ (markForm name opens closes).blank (d,false) = true by simp [markForm,hd]),
          masked_cons,shown_kept]
        rfl
    | true =>
      obtain ⟨x,xs,hx,hxs⟩ := shown_blanked d
      have hblank : ∀ c ∈ x::xs, (textForm name opens closes).blank c = true := fun c hc =>
        blank_white (hxs c hc)
      rw [masked_cons,hx,List.dropWhile_append_of_pos hblank,
        List.dropWhile_cons_of_pos (by simp [markForm])]
      exact ih

theorem mem_masked {c : Char} (hc : Visible c) {es : List Mark} :
    c ∈ masked es ↔ (c,false) ∈ es := by
  induction es with
  | nil => simp
  | cons e es ih =>
    obtain ⟨d,b⟩ := e
    cases b with
    | false => rw [masked_cons,shown_kept,List.singleton_append,List.mem_cons,List.mem_cons,ih]; simp
    | true =>
      obtain ⟨x,xs,hx,hxs⟩ := shown_blanked d
      have hno : c ∉ x::xs := fun h => (hxs c h).elim hc.1 hc.2
      rw [masked_cons,hx,List.mem_append,ih]
      exact ⟨fun h => List.mem_cons_of_mem _ (h.resolve_left hno),fun h => .inr (by simpa using h)⟩

theorem takeWhile_masked {c : Char} (hc : Visible c) (es : List Mark) :
    (masked es).takeWhile (· ≠ c) = masked (es.takeWhile (· ≠ (c,false))) := by
  induction es with
  | nil => rfl
  | cons e es ih =>
    obtain ⟨d,b⟩ := e
    cases b with
    | false =>
      rw [masked_cons,shown_kept,List.singleton_append,List.takeWhile_cons,List.takeWhile_cons]
      by_cases hd : d = c
      · simp [hd]
      · simp only [ne_eq,hd,not_false_eq_true,decide_true,if_true,Prod.mk.injEq,false_and]
        rw [masked_cons,shown_kept,← ih]
        rfl
    | true =>
      obtain ⟨x,xs,hx,hxs⟩ := shown_blanked d
      have hne : ∀ y ∈ x::xs, decide (y ≠ c) = true := fun y hy => by
        simpa using fun heq : y = c => (hxs y hy).elim (fun h => hc.1 (heq ▸ h)) fun h => hc.2 (heq ▸ h)
      rw [masked_cons,hx,List.takeWhile_append_of_pos hne,ih,
        List.takeWhile_cons_of_pos (by simp),masked_cons,hx]

/-- A masked text is read as its marks are. -/
theorem assigned_masked {name : List Char} (hname : ∀ c ∈ name, Visible c) {opens closes : Char}
    (hopens : Visible opens) (hcloses : Visible closes) (es : List Mark) :
    assigned (textForm name opens closes) (masked es) =
      (assigned (markForm name opens closes) es).map fun p => (masked p.1,masked p.2) := by
  have hbehind : behind (textForm name opens closes) (masked es) =
      (behind (markForm name opens closes) es).map masked := by
    have hone {c : Char} (hc : Visible c) (es : List Mark) :
        Delimited.stripPrefix [c] (masked es) = (Delimited.stripPrefix [(c,false)] es).map masked :=
      strip_masked (p := [c]) (by simpa using hc) es
    unfold behind
    change (Delimited.stripPrefix name (masked es)).bind _ = _
    rw [strip_masked hname]
    change _ = Option.map masked ((Delimited.stripPrefix (kept name) es).bind _)
    cases Delimited.stripPrefix (kept name) es with
    | none => rfl
    | some rest =>
      simp only [Option.map_some,Option.bind_some]
      rw [trim_masked,show (textForm name opens closes).equal = '=' from rfl,
        hone (⟨by decide,by decide⟩ : Visible '=')]
      change _ = Option.map masked ((Delimited.stripPrefix [('=',false)] _).bind _)
      cases Delimited.stripPrefix [('=',false)]
          (rest.dropWhile (markForm name opens closes).blank) with
      | none => rfl
      | some rest =>
        simp only [Option.map_some,Option.bind_eq_bind,Option.bind_some]
        rw [trim_masked]
        exact hone hopens _
  unfold assigned
  rw [hbehind]
  cases behind (markForm name opens closes) es with
  | none => rfl
  | some rest =>
    simp only [Option.map_some,Option.bind_eq_bind,Option.bind_some]
    have hin : (textForm name opens closes).closes ∈ masked rest ↔
        (markForm name opens closes).closes ∈ rest := mem_masked hcloses
    by_cases hmem : (markForm name opens closes).closes ∈ rest
    · rw [if_pos hmem,if_pos (hin.mpr hmem)]
      exact congrArg (fun v => some (masked rest,v)) (takeWhile_masked hcloses rest)
    · rw [if_neg hmem,if_neg (fun h => hmem (hin.mp h))]
      rfl

/-! ## The ranges of all values -/

section Found
variable {α : Type} [DecidableEq α]

/-- Every assignment in a text: the text behind its opening delimiter, and its value. -/
def found (f : Form α) : List α → List (List α × List α)
  | [] => []
  | e::es => (assigned f (e::es)).toList ++ found f es

/-- The ranges of the values that a text assigns, for a text that ends at `total`. -/
def ranges (f : Form α) (len : List α → ℕ) (total : ℕ) (es : List α) : List (ℕ × ℕ) :=
  (found f es).map fun p => (total - len p.1,total - len p.1 + len p.2)

theorem ranges_cons (f : Form α) (len : List α → ℕ) (total : ℕ) (e : α) (es : List α) :
    ranges f len total (e::es) = ((assigned f (e::es)).map fun p =>
      (total - len p.1,total - len p.1 + len p.2)).toList ++ ranges f len total es := by
  unfold ranges
  rw [found,List.map_append]
  cases assigned f (e::es) <;> rfl

end Found

theorem valueRange_eq (x y name : List Char) (opens closes : Char) (h : name <+: y) :
    valueRange (x ++ y) name opens closes (size x) =
      some ((assigned (textForm name opens closes) y).map fun p =>
        (size (x ++ y) - size p.1,size (x ++ y) - size p.1 + size p.2)) := by
  obtain ⟨rest,rfl⟩ := h
  have hslice : sliceFrom (x ++ (name ++ rest)) (size x + size name) = some rest := by
    rw [← size_append,← List.append_assoc,sliceFrom_append]
  unfold valueRange assigned behind
  rw [hslice]
  simp only [textForm,trimStart,Delimited.stripPrefix_append,Option.bind_eq_bind,Option.bind_some,
    Option.map_bind]
  congr 1
  rw [Option.bind_assoc]
  congr 1
  funext a
  congr 1
  funext value
  unfold find
  by_cases hmem : closes ∈ value
  · simp only [hmem,if_true,Function.comp_apply,Option.map_some,Option.bind_some]
    congr!
  · simp [hmem]

theorem valueRanges (name : List Char) (opens closes : Char) (x y : List Char) :
    ∃ found, (occurrences name (size x) y).mapM (valueRange (x ++ y) name opens closes) = some found ∧
      found.reduceOption = ranges (textForm name opens closes) size (size (x ++ y)) y := by
  induction y generalizing x with
  | nil => exact ⟨[],rfl,rfl⟩
  | cons c y ih =>
    obtain ⟨found,hfound,hranges⟩ := ih (x ++ [c])
    have hassoc : x ++ [c] ++ y = x ++ c::y := by simp
    have hsize : size (x ++ [c]) = size x + c.utf8Size := by simp
    rw [hassoc] at hfound hranges
    rw [hsize] at hfound
    rw [occurrences,ranges_cons]
    by_cases hprefix : name <+: c::y
    · rw [if_pos (List.isPrefixOf_iff_prefix.mpr hprefix),List.mapM_cons,
        valueRange_eq x (c::y) name opens closes hprefix,hfound]
      refine ⟨_,rfl,?_⟩
      cases assigned (textForm name opens closes) (c::y) with
      | none => rw [Option.map_none,List.reduceOption_cons_of_none,hranges]; rfl
      | some q => rw [Option.map_some,List.reduceOption_cons_of_some,hranges]; rfl
    · have hnone : assigned (textForm name opens closes) (c::y) = none := by
        unfold assigned behind
        rw [show (textForm name opens closes).name = name from rfl,strip_none hprefix]
        rfl
      rw [if_neg (fun h => hprefix (List.isPrefixOf_iff_prefix.mp h)),hnone]
      exact ⟨found,hfound,hranges⟩

theorem ranges_masked {p : Char} {ps : List Char} (hname : ∀ c ∈ p::ps, Visible c)
    {opens closes : Char} (hopens : Visible opens) (hcloses : Visible closes) (total : ℕ)
    (es : List Mark) : ranges (textForm (p::ps) opens closes) size total (masked es) =
      ranges (markForm (p::ps) opens closes) (fun es => size (raw es)) total es := by
  have hassigned := assigned_masked hname hopens hcloses
  induction es with
  | nil => rfl
  | cons e es ih =>
    have hblank {x : Char} (hx : x ≠ p) (ys : List Char) :
        ranges (textForm (p::ps) opens closes) size total (x::ys) =
          ranges (textForm (p::ps) opens closes) size total ys := by
      have hno : ¬ p::ps <+: x::ys := fun h => hx (List.cons_prefix_cons.mp h).1.symm
      have hnone : assigned (textForm (p::ps) opens closes) (x::ys) = none := by
        unfold assigned behind
        rw [show (textForm (p::ps) opens closes).name = p::ps from rfl,strip_none hno]
        rfl
      rw [ranges_cons,hnone]
      rfl
    obtain ⟨d,b⟩ := e
    cases b with
    | false =>
      have hcons : masked ((d,false)::es) = d :: masked es := by
        rw [masked_cons,shown_kept]
        rfl
      have hone := hassigned ((d,false)::es)
      rw [hcons] at hone ⊢
      rw [ranges_cons,ranges_cons,hone,ih]
      congr 2
      rw [Option.map_map]
      congr 1
      funext q
      simp [size_masked]
    | true =>
      obtain ⟨x,xs,hx,hxs⟩ := shown_blanked d
      have hskip : ∀ zs : List Char, (∀ z ∈ zs, z = ' ' ∨ z = '\n') →
          ranges (textForm (p::ps) opens closes) size total (zs ++ masked es) =
            ranges (textForm (p::ps) opens closes) size total (masked es) := by
        intro zs hzs
        induction zs with
        | nil => rfl
        | cons z zs ihz =>
          have hz : z ≠ p := fun heq => (hzs z (by simp)).elim
            (fun h => (hname p (by simp)).1 (heq ▸ h)) fun h => (hname p (by simp)).2 (heq ▸ h)
          rw [List.cons_append,hblank hz,ihz fun w hw => hzs w (List.mem_cons_of_mem _ hw)]
      have hnone : assigned (markForm (p::ps) opens closes) ((d,true)::es) = none := by
        have hno : ¬ kept (p::ps) <+: (d,true)::es := fun h => by
          have hhead := (List.cons_prefix_cons.mp h).1
          cases (Prod.mk.inj hhead).2
        unfold assigned behind
        rw [show (markForm (p::ps) opens closes).name = kept (p::ps) from rfl,strip_none hno]
        rfl
      rw [masked_cons,hx,hskip _ hxs,ranges_cons,hnone,ih]
      rfl

theorem assignmentValues_eq {p : Char} {ps : List Char} (hp : p ∉ ps)
    (hname : ∀ c ∈ p::ps, Visible c) {opens closes : Char} (hopens : Visible opens)
    (hcloses : Visible closes) (source : List Char) :
    assignmentValues source (p::ps) opens closes = some (ranges (markForm (p::ps) opens closes)
      (fun es => size (raw es)) (size source) (marks .code source)) := by
  obtain ⟨found,hfound,hranges⟩ := valueRanges (p::ps) opens closes []
    (masked (marks .code source))
  unfold assignmentValues
  rw [maskComments_eq,Option.bind_eq_bind,Option.bind_some,matchIndices_eq hp]
  simp only [size_nil,List.nil_append] at hfound hranges
  rw [hfound,Option.bind_eq_bind,Option.bind_some,hranges,ranges_masked hname hopens hcloses,
    size_masked,raw_marks]

/-! ## Plugin lists -/

/-- The symbols of plugin lists. -/
abbrev listForm : Form Mark := markForm pluginsMarker '[' ']'

/-- The ranges of the plugin lists in marked characters that end at `total`. -/
def listRanges (total : ℕ) (es : List Mark) : List (ℕ × ℕ) :=
  ranges listForm (fun es => size (raw es)) total es

theorem pluginLists (source : List Char) : assignmentValues source pluginsMarker '[' ']' =
    some (listRanges (size source) (marks .code source)) := by
  have hname : ∀ c ∈ 'c' :: "addy.plugins".toList, Visible c := by
    intro c hc
    have hall : ('c' :: "addy.plugins".toList).all (fun c => c ≠ ' ' && c ≠ '\n') = true := rfl
    simpa [Visible] using List.all_eq_true.mp hall c hc
  exact assignmentValues_eq (by decide) hname ⟨by decide,by decide⟩ ⟨by decide,by decide⟩ source

theorem assigned_list {es r v : List Mark} : assigned listForm es = some (r,v) ↔
    ∃ w z, es = w ++ r ∧ Opener listForm w ∧ r = v ++ (']',false)::z ∧ (']',false) ∉ v :=
  assigned_iff (by decide) (by decide)

/-- A list's range cuts the text. -/
theorem listRanges_cut {x es : List Mark} {r : ℕ × ℕ}
    (h : r ∈ listRanges (size (raw (x ++ es))) es) :
    ∃ a v b, raw (x ++ es) = a ++ (v ++ b) ∧ r = (size a,size a + size v) := by
  induction es generalizing x with
  | nil => cases h
  | cons e es ih =>
    rw [listRanges,ranges_cons,List.mem_append] at h
    rcases h with h | h
    · rw [Option.mem_toList,Option.map_eq_some_iff] at h
      obtain ⟨⟨rest,v⟩,hassigned,rfl⟩ := h
      obtain ⟨w,z,hes,-,rfl,-⟩ := assigned_list.mp hassigned
      refine ⟨raw (x ++ w),raw v,raw ((']',false)::z),by rw [hes]; simp,?_⟩
      have htotal : size (raw (x ++ e::es)) - size (raw (v ++ (']',false)::z)) = size (raw (x ++ w)) := by
        rw [hes]
        simp only [raw_append,size_append]
        omega
      simp only [htotal]
    · have hassoc : x ++ e::es = x ++ [e] ++ es := by simp
      rw [hassoc] at h ⊢
      exact ih h

/-! ## Edits between the bytes kept -/

/-- The parts of a text, each with whether it is the value of a list. -/
abbrev Parts := List (Bool × List Char)

def assemble (ps : Parts) : List Char := ps.flatMap Prod.snd

/-- The ranges of the values among the parts of a text from an offset on. -/
def offsets : ℕ → Parts → List (ℕ × ℕ)
  | _, [] => []
  | o, (false,g)::ps => offsets (o + size g) ps
  | o, (true,v)::ps => (o,o + size v) :: offsets (o + size v) ps

/-- The values edited, and nothing else. -/
def edited (f : List Char → List Char) (ps : Parts) : List Char :=
  ps.flatMap fun p => if p.1 then f p.2 else p.2

/-- Ranges one behind the other part a text. -/
theorem exists_parts {source : List Char} {rs : List (ℕ × ℕ)}
    (hcut : ∀ r ∈ rs, ∃ a v b, source = a ++ (v ++ b) ∧ r = (size a,size a + size v))
    (hsep : rs.Pairwise fun r s => r.2 ≤ s.1) {p t : List Char} (hsource : source = p ++ t)
    (hbehind : ∀ r ∈ rs, size p ≤ r.1) : ∃ ps, t = assemble ps ∧ rs = offsets (size p) ps := by
  induction rs generalizing p t with
  | nil => exact ⟨[(false,t)],by simp [assemble],rfl⟩
  | cons r rs ih =>
    obtain ⟨a,v,b,hsplit,rfl⟩ := hcut r List.mem_cons_self
    have hle : size p ≤ size a := hbehind _ List.mem_cons_self
    obtain ⟨g,rfl,hrest⟩ := split_le (hsource.symm.trans hsplit) hle
    obtain ⟨hnext,hsep⟩ := List.pairwise_cons.mp hsep
    have hsize : size (p ++ g ++ v) = size (p ++ g) + size v := size_append _ _
    obtain ⟨ps,rfl,hrs⟩ := ih (fun r hr => hcut r (List.mem_cons_of_mem _ hr)) hsep
      (p := p ++ g ++ v) (t := b) (by rw [hsplit]; simp) fun r hr => hsize ▸ hnext r hr
    refine ⟨(false,g)::(true,v)::ps,by rw [hrest]; simp [assemble],?_⟩
    rw [hrs,hsize]
    simp [offsets,Nat.add_assoc]

theorem splice_fold {source : List Char} {value : ℕ × ℕ → Option (List Char)}
    {f : List Char → List Char}
    (hvalue : ∀ a v b, source = a ++ (v ++ b) → value (size a,size a + size v) = some (f v))
    {p g : List Char} {ps : Parts} (hsource : source = p ++ (g ++ assemble ps))
    (out : List Char) :
    ((offsets (size p + size g) ps).foldlM (fun (out,copied) range => do
      let gap ← slice source copied range.1
      let text ← value range
      some (out ++ gap ++ text,range.2)) (out,size p) >>= fun (out,copied) => do
        let rest ← sliceFrom source copied
        some (out ++ rest)) = some (out ++ (g ++ edited f ps)) := by
  induction ps generalizing p g out with
  | nil =>
    have hrest : sliceFrom source (size p) = some g := by
      rw [hsource,show assemble [] = [] from rfl,List.append_nil,sliceFrom_append]
    simp [offsets,hrest,edited]
  | cons part ps ih =>
    obtain ⟨isValue,v⟩ := part
    cases isValue with
    | false =>
      have hnext := ih (p := p) (g := g ++ v) (by rw [hsource]; simp [assemble]) out
      rw [size_append,← Nat.add_assoc] at hnext
      rw [offsets,hnext]
      simp [edited]
    | true =>
      have hgap : slice source (size p) (size p + size g) = some g := by
        rw [hsource,slice_append]
      have htext : value (size p + size g,size p + size g + size v) = some (f v) := by
        have h := hvalue (p ++ g) v (assemble ps) (by rw [hsource]; simp [assemble])
        rwa [size_append] at h
      have hnext := ih (p := p ++ g ++ v) (g := []) (by rw [hsource]; simp [assemble])
        (out ++ g ++ f v)
      simp only [size_append,size_nil,Nat.add_zero] at hnext
      rw [offsets,List.foldlM_cons]
      simp only [hgap,htext,Option.bind_eq_bind,Option.bind_some] at hnext ⊢
      rw [hnext]
      simp [edited]

theorem splice_parts {value : ℕ × ℕ → Option (List Char)} {f : List Char → List Char} {ps : Parts}
    (hvalue : ∀ a v b, assemble ps = a ++ (v ++ b) → value (size a,size a + size v) = some (f v)) :
    splice (assemble ps) value (offsets 0 ps) = some (edited f ps) :=
  splice_fold hvalue (p := []) (g := []) rfl []

/-- No plugin list opens in another one's value. -/
def Separate (source : List Char) : Prop := ∀ ranges,
  assignmentValues source pluginsMarker '[' ']' = some ranges →
    ranges.Pairwise fun r s => r.2 ≤ s.1

theorem bumpVersion_parts {source : List Char} {ps : Parts} (hsource : source = assemble ps)
    (hranges : assignmentValues source pluginsMarker '[' ']' = some (offsets 0 ps))
    (module old new : List Char) : bumpVersion source module old new =
      some (edited (replace (literal module old) (literal module new) 0) ps) := by
  unfold bumpVersion
  rw [hranges,Option.bind_eq_bind,Option.bind_some,hsource]
  refine splice_parts fun a v b h => ?_
  rw [h,slice_append]
  rfl

/-- Where no list opens in another one, an edit finds all its slices and changes only complete
literals of the version in the values of lists. -/
theorem bumpVersion_local {source : List Char} (h : Separate source) (module old new : List Char) :
    ∃ ps, source = assemble ps ∧
      assignmentValues source pluginsMarker '[' ']' = some (offsets 0 ps) ∧
      bumpVersion source module old new =
        some (edited (replace (literal module old) (literal module new) 0) ps) := by
  have hranges := pluginLists source
  have hcut : ∀ r ∈ listRanges (size source) (marks .code source),
      ∃ a v b, source = a ++ (v ++ b) ∧ r = (size a,size a + size v) := by
    intro r hr
    have hr' := @listRanges_cut [] (marks .code source) r (by simpa [raw_marks] using hr)
    simpa [raw_marks] using hr'
  obtain ⟨ps,hsource,hps⟩ := exists_parts hcut (h _ hranges) (p := []) rfl fun r _ => Nat.zero_le _
  rw [size_nil] at hps
  exact ⟨ps,hsource,hps ▸ hranges,bumpVersion_parts hsource (hps ▸ hranges) module old new⟩

end CaddyPlugins
end CanixToolbelt
