import CanixToolbelt.CaddyPlugins

/-! A version bump and the plugins extracted around it. -/
namespace CanixToolbelt
namespace CaddyPlugins

open Substrings NixComments

/-! ## What a plain list holds -/

/-- What may stand between the quotes of a literal. -/
inductive Body : List Char → Prop
  | nil : Body []
  | char {c : Char} {cs : List Char} (hq : c ≠ '"') (hb : c ≠ '\\') (h : Body cs) : Body (c::cs)
  | escape {c : Char} {cs : List Char} (h : Body cs) : Body ('\\'::c::cs)

/-- White space, masked comments among it, and quoted literals that it separates. -/
inductive Items : List Char → Prop
  | nil : Items []
  | space {c : Char} {cs : List Char} (hc : Review.whitespace c = true) (h : Items cs) : Items (c::cs)
  | literal {body cs : List Char} (hb : Body body) (h : Items cs)
      (hs : ∀ c ∈ cs.head?, Review.whitespace c = true) : Items ('"' :: (body ++ '"' :: cs))

theorem Body.behind {a b : List Char} {c : Char} (hc : c ≠ '\\') (h : Body (a ++ c::b)) : Body b := by
  generalize hu : a ++ c::b = u at h
  induction h generalizing a with
  | nil => cases a <;> cases hu
  | char hq hb h ih =>
    cases a with
    | nil =>
      obtain ⟨rfl,rfl⟩ := List.cons.inj hu
      exact h
    | cons d a => exact ih (List.cons.inj hu).2
  | escape h ih =>
    cases a with
    | nil => exact absurd (List.cons.inj hu).1 hc
    | cons d a =>
      cases a with
      | nil =>
        obtain ⟨rfl,rfl⟩ := List.cons.inj (List.cons.inj hu).2
        exact h
      | cons e a => exact ih (List.cons.inj (List.cons.inj hu).2).2

theorem Items.head {c : Char} {cs : List Char} (h : Items (c::cs)) :
    c = '"' ∨ Review.whitespace c = true := by
  cases h with
  | space hc _ => exact .inr hc
  | literal => exact .inl rfl

theorem Items.behind {c : Char} {cs : List Char} (hc : c ≠ '"') (h : Items (c::cs)) : Items cs := by
  cases h with
  | space _ h => exact h
  | literal => exact absurd rfl hc

theorem quote_white : Review.whitespace '"' = false := rfl
theorem backslash_white : Review.whitespace '\\' = false := rfl

/-- Read from inside a literal, the rest of a list opens a literal that it does not close. -/
theorem Items.odd {cs : List Char} (h : Items cs) {t : List Char} (ht : Body t) :
    ¬ Items (t ++ '"' :: cs) := by
  induction hn : cs.length using Nat.strong_induction_on generalizing cs t with
  | _ n ih =>
    intro hall
    induction ht with
    | char hq hb ht iht => exact iht (hall.behind hq)
    | escape ht iht =>
      rcases hall.head with hc | hc
      · cases hc
      · rw [backslash_white] at hc
        cases hc
    | nil =>
      generalize hu : ([] : List Char) ++ '"' :: cs = u at hall
      cases hall with
      | nil => cases hu
      | space hc _ =>
        obtain ⟨rfl,rfl⟩ := List.cons.inj hu
        rw [quote_white] at hc
        cases hc
      | literal hbody hrest hs =>
        rename_i body rest
        obtain ⟨-,hcs⟩ := List.cons.inj hu
        have hgap : ∃ b₃ cs₃, Body b₃ ∧ Items cs₃ ∧ rest = b₃ ++ '"' :: cs₃ ∧ cs₃.length < cs.length := by
          clear ih hu hs hrest hn
          induction h generalizing body with
          | nil => cases body <;> cases hcs
          | @space c cs hc h ihc =>
            cases body with
            | nil =>
              obtain ⟨rfl,-⟩ := List.cons.inj hcs
              rw [quote_white] at hc
              cases hc
            | cons d body =>
              obtain ⟨rfl,htail⟩ := List.cons.inj hcs
              cases hbody with
              | char _ _ hbody =>
                obtain ⟨b₃,cs₃,hb₃,hcs₃,hrest,hlt⟩ := ihc hbody htail
                exact ⟨b₃,cs₃,hb₃,hcs₃,hrest,by simp; omega⟩
              | escape _ =>
                rw [backslash_white] at hc
                cases hc
          | @literal b cs hb h hs ihc =>
            cases body with
            | nil =>
              obtain ⟨-,hcs⟩ := List.cons.inj hcs
              exact ⟨b,cs,hb,h,hcs.symm,by simp; omega⟩
            | cons d body =>
              obtain ⟨rfl,-⟩ := List.cons.inj hcs
              cases hbody with
              | char hq _ _ => exact absurd rfl hq
        obtain ⟨b₃,cs₃,hb₃,hcs₃,rfl,hlt⟩ := hgap
        exact ih cs₃.length (hn ▸ hlt) hcs₃ hb₃ rfl hrest

/-- No list opens in a plain list: what follows the bracket is not plain. -/
theorem Items.unopened {u : List Char} (h : Items u) {a b : List Char} (hu : u = a ++ '[' :: b) :
    ¬ Items b := by
  induction h generalizing a with
  | nil => cases a <;> cases hu
  | space hc h ih =>
    cases a with
    | nil =>
      obtain ⟨rfl,-⟩ := List.cons.inj hu
      cases hc
    | cons d a => exact ih (List.cons.inj hu).2
  | @literal body cs hbody hcs hs ih =>
    cases a with
    | nil => cases (List.cons.inj hu).1
    | cons d a =>
      obtain ⟨rfl,htail⟩ := List.cons.inj hu
      rcases List.append_eq_append_iff.mp htail with ⟨m,ha,hb⟩ | ⟨m,ha,hb⟩
      · cases m with
        | nil => cases hb
        | cons e m => exact ih (List.cons.inj hb).2
      · cases m with
        | nil => cases hb
        | cons e m =>
          obtain ⟨rfl,rfl⟩ := List.cons.inj hb
          rw [ha] at hbody
          exact hcs.odd (hbody.behind (by decide))

/-- The characters that modules and versions are made of. -/
def Clean (c : Char) : Prop :=
  c ∉ ['"','\'','[',']','\\','#','*'] ∧ Review.whitespace c = false

def Word (k : List Char) : Prop := ∀ c ∈ k, Clean c

theorem Word.not_mem {k : List Char} (hk : Word k) {c : Char}
    (hc : c ∈ ['"','\'','[',']','\\','#','*']) : c ∉ k := fun h => (hk c h).1 hc

theorem Body.first {body : List Char} (h : Body body) {k cs q : List Char} (hk : Word k)
    (hu : body ++ '"' :: cs = k ++ '"' :: q) : body = k ∧ cs = q := by
  have hquote : '"' ∉ k := hk.not_mem (by decide)
  have hback : '\\' ∉ k := hk.not_mem (by decide)
  clear hk
  induction h generalizing k with
  | nil =>
    cases k with
    | nil => exact ⟨rfl,(List.cons.inj hu).2⟩
    | cons d k =>
      obtain ⟨rfl,-⟩ := List.cons.inj hu
      exact absurd List.mem_cons_self hquote
  | char hq hb h ih =>
    cases k with
    | nil => exact absurd (List.cons.inj hu).1 hq
    | cons d k =>
      obtain ⟨rfl,htail⟩ := List.cons.inj hu
      obtain ⟨rfl,rfl⟩ := ih htail (fun hm => hquote (List.mem_cons_of_mem _ hm))
        fun hm => hback (List.mem_cons_of_mem _ hm)
      exact ⟨rfl,rfl⟩
  | escape h ih =>
    cases k with
    | nil => cases (List.cons.inj hu).1
    | cons d k =>
      obtain ⟨rfl,-⟩ := List.cons.inj hu
      exact absurd List.mem_cons_self hback

/-- A clean literal that begins inside of a literal or right behind it. -/
theorem Body.inner {body : List Char} (h : Body body) {p k cs q : List Char} (hk : Word k)
    (hu : body ++ '"' :: cs = p ++ '"' :: (k ++ '"' :: q)) :
    cs = q ∨ cs = k ++ '"' :: q ∨ ∃ p', cs = p' ++ '"' :: (k ++ '"' :: q) := by
  induction h generalizing p with
  | nil =>
    cases p with
    | nil => exact .inr (.inl (List.cons.inj hu).2)
    | cons d p => exact .inr (.inr ⟨p,(List.cons.inj hu).2⟩)
  | char hq hb h ih =>
    cases p with
    | nil => exact absurd (List.cons.inj hu).1 hq
    | cons d p => exact ih (List.cons.inj hu).2
  | escape h ih =>
    cases p with
    | nil => cases (List.cons.inj hu).1
    | cons d p =>
      cases p with
      | nil => exact .inl (h.first hk (List.cons.inj (List.cons.inj hu).2).2).2
      | cons e p => exact ih (List.cons.inj (List.cons.inj hu).2).2

/-- A clean literal in a plain list is followed by white space or by the list's end. -/
theorem Items.after {u : List Char} (h : Items u) {p k q : List Char} (hk : Word k) (hne : k ≠ [])
    (hu : u = p ++ '"' :: (k ++ '"' :: q)) : ∀ c ∈ q.head?, Review.whitespace c = true := by
  induction h generalizing p with
  | nil => cases p <;> cases hu
  | space hc h ih =>
    cases p with
    | nil =>
      obtain ⟨rfl,-⟩ := List.cons.inj hu
      rw [quote_white] at hc
      cases hc
    | cons d p => exact ih (List.cons.inj hu).2
  | @literal body cs hbody hcs hs ih =>
    cases p with
    | nil =>
      obtain ⟨-,rfl⟩ := hbody.first hk (List.cons.inj hu).2
      exact hs
    | cons d p =>
      rcases hbody.inner hk (List.cons.inj hu).2 with rfl | rfl | ⟨p',rfl⟩
      · exact hs
      · obtain ⟨c,k,rfl⟩ := List.exists_cons_of_ne_nil hne
        have hwhite := hs c rfl
        rw [(hk c List.mem_cons_self).2] at hwhite
        cases hwhite
      · exact ih rfl

/-! ## Literals swapped in marked characters -/

/-- Some literals around `k` replaced by the ones around `l`. -/
inductive Swapped (k l : List Char) : List Mark → List Mark → Prop
  | nil : Swapped k l [] []
  | same (e : Mark) {es fs : List Mark} (h : Swapped k l es fs) : Swapped k l (e::es) (e::fs)
  | swap {es fs : List Mark} (h : Swapped k l es fs) :
      Swapped k l (kept ('"' :: (k ++ ['"'])) ++ es) (kept ('"' :: (l ++ ['"'])) ++ fs)

theorem Swapped.symm {k l : List Char} {es fs : List Mark} (h : Swapped k l es fs) :
    Swapped l k fs es := by
  induction h with
  | nil => exact .nil
  | same e _ ih => exact .same e ih
  | swap _ ih => exact .swap ih

theorem Swapped.refl (k l : List Char) (es : List Mark) : Swapped k l es es := by
  induction es with
  | nil => exact .nil
  | cons e es ih => exact .same e ih

theorem Swapped.append {k l : List Char} {es fs gs hs : List Mark} (h : Swapped k l es fs)
    (h' : Swapped k l gs hs) : Swapped k l (es ++ gs) (fs ++ hs) := by
  induction h with
  | nil => exact h'
  | same e _ ih => exact .same e ih
  | swap _ ih => rw [List.append_assoc,List.append_assoc]; exact .swap ih

theorem Swapped.head {k l : List Char} {es fs : List Mark} (h : Swapped k l es fs) :
    es.head? = fs.head? := by
  cases h <;> rfl

@[simp] theorem kept_cons (c : Char) (cs : List Char) : kept (c::cs) = (c,false) :: kept cs := rfl
@[simp] theorem kept_append (cs ds : List Char) : kept (cs ++ ds) = kept cs ++ kept ds :=
  List.map_append

theorem mem_kept {e : Mark} {cs : List Char} : e ∈ kept cs ↔ e.1 ∈ cs ∧ e.2 = false := by
  obtain ⟨c,b⟩ := e
  simp only [kept,List.mem_map,Prod.mk.injEq]
  constructor
  · rintro ⟨d,hd,hc,hb⟩
    exact ⟨hc ▸ hd,hb.symm⟩
  · rintro ⟨hc,hb⟩
    exact ⟨c,hc,rfl,hb.symm⟩

/-- What is read without its quotes is not swapped. -/
theorem Swapped.unquoted {k l : List Char} {w es fs : List Mark} (hw : ('"',false) ∉ w)
    (h : Swapped k l (w ++ es) fs) : ∃ gs, fs = w ++ gs ∧ Swapped k l es gs := by
  induction w generalizing fs with
  | nil => exact ⟨fs,rfl,h⟩
  | cons e w ih =>
    rw [List.mem_cons,not_or] at hw
    generalize hu : e::w ++ es = u at h
    cases h with
    | nil => cases hu
    | same d h =>
      obtain ⟨rfl,rfl⟩ := List.cons.inj hu
      obtain ⟨gs,rfl,hgs⟩ := ih hw.2 h
      exact ⟨gs,rfl,hgs⟩
    | swap h => exact absurd (List.cons.inj hu).1.symm hw.1

theorem prefix_before {a es v z : List Mark} {x : Mark} (hx : x ∉ a) (h : a ++ es = v ++ x::z) :
    ∃ v', v = a ++ v' ∧ es = v' ++ x::z := by
  rcases List.append_eq_append_iff.mp h with ⟨m,hv,hes⟩ | ⟨m,ha,hz⟩
  · exact ⟨m,hv,hes⟩
  · cases m with
    | nil => exact ⟨[],by simpa using ha.symm,by simpa using hz.symm⟩
    | cons y m =>
      obtain ⟨rfl,-⟩ := List.cons.inj hz
      exact absurd (ha ▸ List.mem_append_right v List.mem_cons_self) hx

/-- A list's value is swapped up to its closing bracket. -/
theorem Swapped.closed {k l : List Char} (hk : ']' ∉ k) (hl : ']' ∉ l) {v z fs : List Mark}
    (hv : (']',false) ∉ v) (h : Swapped k l (v ++ (']',false)::z) fs) :
    ∃ v' z', fs = v' ++ (']',false)::z' ∧ (']',false) ∉ v' ∧ Swapped k l v v' ∧ Swapped k l z z' := by
  generalize hu : v ++ (']',false)::z = u at h
  induction h generalizing v with
  | nil => cases v <;> cases hu
  | same e h ih =>
    cases v with
    | nil =>
      obtain ⟨rfl,rfl⟩ := List.cons.inj hu
      exact ⟨[],_,rfl,by simp,.nil,h⟩
    | cons d v =>
      obtain ⟨rfl,htail⟩ := List.cons.inj hu
      rw [List.mem_cons,not_or] at hv
      obtain ⟨v',z',rfl,hv',hswap,hz⟩ := ih hv.2 htail
      exact ⟨d::v',z',rfl,by simp [hv.1,hv'],.same d hswap,hz⟩
  | swap h ih =>
    have hout {w : List Char} (hw : ']' ∉ w) : ((']',false) : Mark) ∉ kept ('"' :: (w ++ ['"'])) := by
      simp [mem_kept,hw]
    obtain ⟨v',rfl,htail⟩ := prefix_before (hout hk) hu.symm
    rw [List.mem_append,not_or] at hv
    obtain ⟨v'',z',rfl,hv'',hswap,hz⟩ := ih hv.2 htail.symm
    refine ⟨kept ('"' :: (l ++ ['"'])) ++ v'',z',by simp,?_,.swap hswap,hz⟩
    rw [List.mem_append,not_or]
    exact ⟨hout hl,hv''⟩

/-! ## The mask of an edited text -/

theorem turn_clean {r : Region} (hr : r.comment = false) {c : Char} (hc : Clean c)
    {peek : Option Char} (hpeek : peek ≠ some '*') : turn r.phase c peek = (r.phase,false) := by
  obtain ⟨hc,-⟩ := hc
  simp only [List.mem_cons,List.not_mem_nil,or_false,not_or] at hc
  obtain ⟨hquote,htick,-,-,hback,hhash,-⟩ := hc
  cases r with
  | code => simp [turn,Region.phase,atCode,hquote,htick,hhash,hpeek]
  | string => simp [turn,Region.phase,hquote,hback]
  | indented => simp [turn,Region.phase,htick]
  | line => cases hr
  | block => cases hr

theorem marks_word {r : Region} (hr : r.comment = false) {k : List Char} (hk : Word k)
    (cs : List Char) : marks r.phase (k ++ '"' :: cs) = kept k ++ marks r.phase ('"' :: cs) := by
  induction k with
  | nil => rfl
  | cons c k ih =>
    have hpeek : (k ++ '"' :: cs).head? ≠ some '*' := by
      cases k with
      | nil => simp
      | cons d k =>
        intro h
        have hd := (hk d (by simp)).1
        rw [Option.some.inj h] at hd
        exact hd (by decide)
    rw [List.cons_append,marks,turn_clean hr (hk c List.mem_cons_self) hpeek,
      ih fun x hx => hk x (List.mem_cons_of_mem _ hx)]
    rfl

/-- A quote that is kept leads out of all comments. -/
theorem turn_quote {p : Phase} (h : (turn p '"' none).2 = false) : ∃ r : Region, r.comment = false ∧
    ∀ peek, turn p '"' peek = (r.phase,false) := by
  cases p with
  | code => exact ⟨.string,rfl,fun _ => rfl⟩
  | tick => exact ⟨.string,rfl,fun _ => rfl⟩
  | string => exact ⟨.code,rfl,fun _ => rfl⟩
  | escape => exact ⟨.string,rfl,fun _ => rfl⟩
  | indented => exact ⟨.indented,rfl,fun _ => rfl⟩
  | first => exact ⟨.indented,rfl,fun _ => rfl⟩
  | second => exact ⟨.string,rfl,fun _ => rfl⟩
  | line => cases h
  | opening => cases h
  | block => cases h
  | star => cases h

theorem turn_quote_peek (p : Phase) (peek peek' : Option Char) :
    turn p '"' peek = turn p '"' peek' := by
  cases p <;> rfl

/-- A clean literal that begins outside of comments is kept, whatever it says. -/
theorem marks_literal {p : Phase} (h : (turn p '"' none).2 = false) : ∃ q, ∀ k cs, Word k →
    marks p ('"' :: (k ++ '"' :: cs)) = kept ('"' :: (k ++ ['"'])) ++ marks q cs := by
  obtain ⟨r,hr,hturn⟩ := turn_quote h
  have hclose : (turn r.phase '"' none).2 = false := by
    cases r with
    | code => rfl
    | string => rfl
    | indented => rfl
    | line => cases hr
    | block => cases hr
  obtain ⟨s,-,hturn'⟩ := turn_quote hclose
  refine ⟨s.phase,fun k cs hk => ?_⟩
  rw [marks,hturn,marks_word hr hk,marks,hturn']
  simp [kept]

theorem marks_swapped {k l : List Char} (hk : Word k) (hl : Word l) {es fs : List Mark}
    (h : Swapped k l es fs) {p : Phase} (hes : marks p (raw es) = es) : marks p (raw fs) = fs := by
  induction h generalizing p with
  | nil => rfl
  | @same e es fs h ih =>
    have hhead : (raw es).head? = (raw fs).head? := by
      rw [raw,raw,List.head?_map,List.head?_map,h.head]
    rw [raw_cons,marks] at hes ⊢
    obtain ⟨he,hrest⟩ := List.cons.inj hes
    rw [← hhead,he,ih hrest]
  | @swap es fs h ih =>
    have hraw (w : List Char) (gs : List Mark) :
        raw (kept ('"' :: (w ++ ['"'])) ++ gs) = '"' :: (w ++ '"' :: raw gs) := by
      rw [raw_append,raw_kept]
      simp
    rw [hraw] at hes ⊢
    have hkept : (turn p '"' none).2 = false := by
      rw [marks] at hes
      rw [turn_quote_peek p none]
      exact (Prod.mk.inj (List.cons.inj hes).1).2
    obtain ⟨q,hq⟩ := marks_literal hkept
    rw [hq k _ hk] at hes
    rw [hq l _ hl,ih (List.append_cancel_left hes)]

/-! ## The lists of an edited text -/

def values (es : List Mark) : List (List Mark) := (found listForm es).map Prod.snd

theorem values_suffix (x : List Mark) {u es : List Mark} (h : u ∈ values es) :
    u ∈ values (x ++ es) := by
  induction x with
  | nil => exact h
  | cons e x ih =>
    rw [List.cons_append,values,found,List.map_append]
    exact List.mem_append_right _ ih

theorem opener_mem {w : List Mark} (hw : Opener listForm w) {e : Mark} (he : e ∈ w) :
    e ∈ kept pluginsMarker ∨ listForm.blank e = true ∨ e = ('=',false) ∨ e = ('[',false) := by
  obtain ⟨s,t,rfl,hs,ht⟩ := hw
  simp only [List.mem_append,List.mem_cons,List.not_mem_nil,or_false] at he
  rcases he with he | he | he | he | he
  · exact .inl he
  · exact .inr (.inl (hs e he))
  · exact .inr (.inr (.inl he))
  · exact .inr (.inl (ht e he))
  · exact .inr (.inr (.inr he))

theorem opener_free {w : List Mark} (hw : Opener listForm w) {c : Char} (hc : c ∉ pluginsMarker)
    (hblank : Review.whitespace c = false) (hequal : c ≠ '=') (hopens : c ≠ '[') :
    (c,false) ∉ w := by
  intro he
  rcases opener_mem hw he with he | he | he | he
  · exact hc (mem_kept.mp he).1
  · rw [show listForm.blank (c,false) = Review.whitespace c from rfl,hblank] at he
    cases he
  · exact hequal (Prod.mk.inj he).1
  · exact hopens (Prod.mk.inj he).1

theorem opener_cons {w : List Mark} (hw : Opener listForm w) :
    ∃ w', w = ('c',false) :: w' ∧ ('c',false) ∉ w' := by
  obtain ⟨s,t,rfl,hs,ht⟩ := hw
  refine ⟨kept "addy.plugins".toList ++ (s ++ ('=',false) :: (t ++ [('[',false)])),rfl,?_⟩
  have hblank : listForm.blank ('c',false) = false := rfl
  simp only [List.mem_append,List.mem_cons,List.not_mem_nil,or_false,not_or]
  refine ⟨fun h => ?_,fun h => ?_,by decide,fun h => ?_,by decide⟩
  · exact absurd (mem_kept.mp h).1 (by decide)
  · cases hblank.symm.trans (hs _ h)
  · cases hblank.symm.trans (ht _ h)

theorem assigned_head {e : Mark} {es : List Mark} (he : e ≠ ('c',false)) :
    assigned listForm (e::es) = none := by
  by_contra h
  obtain ⟨⟨r,v⟩,hassigned⟩ := Option.ne_none_iff_exists'.mp h
  obtain ⟨w,z,hes,hw,-,-⟩ := assigned_list.mp hassigned
  obtain ⟨w',rfl,-⟩ := opener_cons hw
  exact he (List.cons.inj hes).1

/-- No assignment begins in `u` before `t`. -/
def Unassigned (u t : List Mark) : Prop := ∀ x y, u = x ++ y → y ≠ [] → assigned listForm (y ++ t) = none

theorem Unassigned.cons {e : Mark} {u t : List Mark} (he : assigned listForm (e::(u ++ t)) = none)
    (h : Unassigned u t) : Unassigned (e::u) t := by
  intro x y hu hne
  cases x with
  | nil =>
    rw [List.nil_append] at hu
    rw [← hu]
    exact he
  | cons d x => exact h x y (List.cons.inj hu).2 hne

theorem Unassigned.tail {e : Mark} {u t : List Mark} (h : Unassigned (e::u) t) :
    assigned listForm (e::(u ++ t)) = none ∧ Unassigned u t :=
  ⟨h [] (e::u) rfl (by simp),fun x y hu hne => h (e::x) y (by rw [hu]; rfl) hne⟩

theorem unassigned_nil (t : List Mark) : Unassigned [] t := by
  intro x y hu hne
  exact absurd (List.append_eq_nil_iff.mp hu.symm).2 hne

/-- Where the first character of the name does not stand, no assignment begins. -/
theorem unassigned_free {u : List Mark} (h : ('c',false) ∉ u) (t : List Mark) : Unassigned u t := by
  induction u with
  | nil => exact unassigned_nil t
  | cons e u ih =>
    rw [List.mem_cons,not_or] at h
    exact (ih h.2).cons (assigned_head fun he => h.1 he.symm)

theorem Unassigned.append {u v t : List Mark} (hu : Unassigned u (v ++ t)) (hv : Unassigned v t) :
    Unassigned (u ++ v) t := by
  induction u with
  | nil => exact hv
  | cons e u ih =>
    have he := hu.tail
    refine (ih he.2).cons ?_
    rw [List.append_assoc]
    exact he.1

theorem Unassigned.found {u t : List Mark} (h : Unassigned u t) :
    CaddyPlugins.found listForm (u ++ t) = CaddyPlugins.found listForm t := by
  induction u with
  | nil => rfl
  | cons e u ih =>
    rw [List.cons_append,CaddyPlugins.found,h.tail.1,ih h.tail.2]
    rfl

/-- The assignments of a list and of what stands behind it. -/
theorem found_list {w v z : List Mark} (hw : Opener listForm w) (hv : (']',false) ∉ v)
    (hno : Unassigned v ((']',false)::z)) : found listForm (w ++ (v ++ (']',false)::z)) =
      (v ++ (']',false)::z,v) :: found listForm z := by
  have hassigned : assigned listForm (w ++ (v ++ (']',false)::z)) = some (v ++ (']',false)::z,v) :=
    assigned_list.mpr ⟨w,z,rfl,hw,rfl,hv⟩
  have hclose : found listForm ((']',false)::z) = found listForm z := by
    rw [found,assigned_head (by decide)]
    rfl
  obtain ⟨w',rfl,hc⟩ := opener_cons hw
  have hrest := ((unassigned_free hc (v ++ (']',false)::z)).append hno).found
  rw [List.append_assoc] at hrest
  rw [List.cons_append] at hassigned ⊢
  rw [found,hassigned,hrest,hclose]
  rfl

/-! ## Edits of plain lists -/

/-- A marked text edited: the values of its lists, each beside what it becomes. -/
inductive Edited (k l : List Char) : List Mark → List Mark → List (List Mark × List Mark) → Prop
  | nil : Edited k l [] [] []
  | gap (e : Mark) {es fs : List Mark} {vs : List (List Mark × List Mark)}
      (hno : assigned listForm (e::es) = none) (h : Edited k l es fs vs) :
      Edited k l (e::es) (e::fs) vs
  | list {w v v' es fs : List Mark} {vs : List (List Mark × List Mark)} (hw : Opener listForm w)
      (hv : (']',false) ∉ v) (hno : Unassigned v ((']',false)::es)) (hswap : Swapped k l v v')
      (h : Edited k l es fs vs) :
      Edited k l (w ++ (v ++ (']',false)::es)) (w ++ (v' ++ (']',false)::fs)) ((v,v')::vs)

theorem Edited.swapped {k l : List Char} {es fs : List Mark} {vs : List (List Mark × List Mark)}
    (h : Edited k l es fs vs) : Swapped k l es fs := by
  induction h with
  | nil => exact .nil
  | gap e _ _ ih => exact .same e ih
  | list _ _ _ hswap _ ih => exact (Swapped.refl k l _).append (hswap.append (.same _ ih))

/-- A swap makes no assignment where there was none. -/
theorem Swapped.unassigned {k l : List Char} (hk : ']' ∉ k) (hl : ']' ∉ l) {es fs : List Mark}
    (h : Swapped k l es fs) (hno : assigned listForm es = none) : assigned listForm fs = none := by
  by_contra hsome
  obtain ⟨⟨r,v⟩,hassigned⟩ := Option.ne_none_iff_exists'.mp hsome
  obtain ⟨w,z,rfl,hw,rfl,hv⟩ := assigned_list.mp hassigned
  have hquote := opener_free hw (c := '"') (by decide) rfl (by decide) (by decide)
  obtain ⟨gs,rfl,hgs⟩ := h.symm.unquoted hquote
  obtain ⟨v',z',rfl,hv',-,-⟩ := hgs.closed hl hk hv
  rw [assigned_list.mpr ⟨w,z',rfl,hw,rfl,hv'⟩] at hno
  cases hno

theorem opener_opens {w : List Mark} (hw : Opener listForm w) : ('[',false) ∈ w := by
  obtain ⟨s,t,rfl,-,-⟩ := hw
  have hlast : listForm.opens = ('[',false) := rfl
  simp [hlast]

/-- Inside of a clean literal the name may stand, but its quote comes before any bracket. -/
theorem unassigned_literal {k : List Char} (hopens : '[' ∉ k) (t : List Mark) :
    Unassigned (kept ('"' :: (k ++ ['"']))) t := by
  have hword : Unassigned (kept k) (('"',false)::t) := by
    intro x y hk hne
    by_contra hsome
    obtain ⟨⟨r,v⟩,hassigned⟩ := Option.ne_none_iff_exists'.mp hsome
    obtain ⟨w,z,hy,hw,-,-⟩ := assigned_list.mp hassigned
    have hlast := opener_opens hw
    have hno : ('[',false) ∉ y := fun h =>
      hopens (mem_kept.mp (hk ▸ List.mem_append_right x h)).1
    rcases List.append_eq_append_iff.mp hy with ⟨m,hw',hr⟩ | ⟨m,rfl,-⟩
    · cases m with
      | nil =>
        rw [List.append_nil] at hw'
        exact hno (hw' ▸ hlast)
      | cons d m =>
        obtain ⟨rfl,-⟩ := List.cons.inj hr
        exact opener_free hw (c := '"') (by decide) rfl (by decide) (by decide)
          (hw' ▸ List.mem_append_right y List.mem_cons_self)
    · exact hno (List.mem_append_left m hlast)
  have hclose : Unassigned [('"',false)] t := unassigned_free (by decide) t
  rw [kept_cons,kept_append]
  exact (hword.append hclose).cons (assigned_head (by decide))

theorem Unassigned.behind {u v t : List Mark} (h : Unassigned (u ++ v) t) : Unassigned v t := by
  intro x y hv hne
  exact h (u ++ x) y (by rw [hv,List.append_assoc]) hne

theorem Swapped.unassigned_before {k l : List Char} (hk : ']' ∉ k) (hl : Word l)
    {v v' t u : List Mark} (h : Swapped k l v v') (ht : Swapped k l t u) (hno : Unassigned v t) :
    Unassigned v' u := by
  induction h with
  | nil => exact unassigned_nil u
  | same e h ih =>
    exact (ih hno.tail.2).cons ((Swapped.same e (h.append ht)).unassigned hk
      (hl.not_mem (by decide)) hno.tail.1)
  | swap h ih =>
    exact (unassigned_literal (hl.not_mem (by decide)) _).append
      (ih hno.behind)

theorem Swapped.free {k l : List Char} (hl : ']' ∉ l) {v v' : List Mark} (h : Swapped k l v v')
    (hv : (']',false) ∉ v) : (']',false) ∉ v' := by
  induction h with
  | nil => exact hv
  | same e h ih =>
    rw [List.mem_cons,not_or] at hv ⊢
    exact ⟨hv.1,ih hv.2⟩
  | swap h ih =>
    rw [List.mem_append,not_or] at hv ⊢
    refine ⟨fun hmem => ?_,ih hv.2⟩
    have hin := (mem_kept.mp hmem).1
    simp [hl] at hin

/-- The values of an edited text are those of the text, edited. -/
theorem Edited.values {k l : List Char} (hk : Word k) (hl : Word l) {es fs : List Mark}
    {vs : List (List Mark × List Mark)} (h : Edited k l es fs vs) :
    CaddyPlugins.values es = vs.map Prod.fst ∧ CaddyPlugins.values fs = vs.map Prod.snd := by
  have hk' : ']' ∉ k := hk.not_mem (by decide)
  have hl' : ']' ∉ l := hl.not_mem (by decide)
  unfold CaddyPlugins.values
  induction h with
  | nil => exact ⟨rfl,rfl⟩
  | gap e hno h ih =>
    have hno' := (Swapped.same e h.swapped).unassigned hk' hl' hno
    rw [found,found,hno,hno']
    exact ih
  | list hw hv hno hswap h ih =>
    have hno' := hswap.unassigned_before hk' hl (.same _ h.swapped) hno
    rw [found_list hw hv hno,found_list hw (hswap.free hl' hv) hno']
    exact ⟨congrArg (_ :: ·) ih.1,congrArg (_ :: ·) ih.2⟩

/-! ## Every literal of the version -/

/-- All literals around `k` that a mask shows are replaced, and none runs into the next. -/
inductive Exact (k l : List Char) : List Mark → List Mark → Prop
  | nil : Exact k l [] []
  | same (e : Mark) {es fs : List Mark} (hno : e = ('"',false) → ¬ k ++ ['"'] <+: masked es)
      (h : Exact k l es fs) : Exact k l (e::es) (e::fs)
  | swap {es fs : List Mark} (hnext : (masked es).head? ≠ some 'g') (h : Exact k l es fs) :
      Exact k l (kept ('"' :: (k ++ ['"'])) ++ es) (kept ('"' :: (l ++ ['"'])) ++ fs)

theorem Exact.swapped {k l : List Char} {es fs : List Mark} (h : Exact k l es fs) :
    Swapped k l es fs := by
  induction h with
  | nil => exact .nil
  | same e _ _ ih => exact .same e ih
  | swap _ _ ih => exact .swap ih

theorem Word.visible {k : List Char} (hk : Word k) : ∀ c ∈ k, Visible c := by
  intro c hc
  have hwhite := (hk c hc).2
  constructor
  · rintro rfl
    cases hwhite
  · rintro rfl
    cases hwhite

/-- What `str::replace` makes of a list's text, in its marks. -/
theorem exists_exact {k : List Char} (hk : Word k) (l : List Char)
    {v t : List Mark} {p : Phase} (hscan : marks p (raw (v ++ t)) = v ++ t)
    (hquotes : ∀ e ∈ v, e.2 = true → e.1 ≠ '"')
    (hafter : ∀ a q, masked v = a ++ '"' :: (k ++ '"' :: q) →
      ∀ c ∈ q.head?, Review.whitespace c = true) :
    ∃ v', Exact k l v v' ∧
      raw v' = replace ('"' :: (k ++ ['"'])) ('"' :: (l ++ ['"'])) 0 (raw v) := by
  induction hn : v.length using Nat.strong_induction_on generalizing v p with
  | _ n ih =>
    cases v with
    | nil => exact ⟨[],.nil,rfl⟩
    | cons e v =>
      rw [List.cons_append,raw_cons,marks] at hscan
      obtain ⟨he,hrest⟩ := List.cons.inj hscan
      by_cases hlit : '"' :: (k ++ ['"']) <+: raw (e::v)
      · obtain ⟨hquote,cs,hcs⟩ := List.cons_prefix_cons.mp hlit
        have hkept : e = ('"',false) := by
          obtain ⟨c,b⟩ := e
          obtain rfl : '"' = c := hquote
          cases b with
          | false => rfl
          | true => exact absurd rfl (hquotes _ List.mem_cons_self rfl)
        subst hkept
        have hmark : (turn p '"' none).2 = false := by
          rw [turn_quote_peek p none]
          exact (Prod.mk.inj he).2
        obtain ⟨q,hq⟩ := marks_literal hmark
        obtain ⟨x,y,rfl,hx,hy⟩ := List.map_eq_append_iff.mp hcs.symm
        -- the marks of the literal are determined, and the rest is scanned on its own
        have hraw : raw (x ++ y ++ t) = k ++ '"' :: raw (y ++ t) := by
          rw [List.append_assoc,raw_append,show raw x = k ++ ['"'] from hx]
          simp
        have hscan : ('"',false) :: (x ++ (y ++ t)) =
            kept ('"' :: (k ++ ['"'])) ++ marks q (raw (y ++ t)) := by
          rw [← hq k _ hk,marks,← hraw,← List.append_assoc]
          exact (congrArg₂ List.cons he hrest).symm
        have hlength : x.length = (kept (k ++ ['"'])).length := by
          have hlen := congrArg List.length hx
          simpa [kept] using hlen
        have hparts := List.append_inj (List.cons.inj hscan).2 hlength
        have hx' : x = kept (k ++ ['"']) := hparts.1
        clear hscan
        subst hx'
        have hy' : masked (('"',false) :: (kept (k ++ ['"']) ++ y)) =
            '"' :: (k ++ '"' :: masked y) := by
          rw [masked_cons,masked_append,masked_kept,shown_kept]
          simp
        obtain ⟨v',hexact,hv'⟩ := ih y.length (by simp at hn; omega) hparts.2.symm
          (fun e he => hquotes e (by simp [he]))
          (fun a q hq => hafter ('"' :: (k ++ '"' :: a)) q (by rw [hy',hq]; simp)) rfl
        refine ⟨kept ('"' :: (l ++ ['"'])) ++ v',.swap (fun hg => ?_) hexact,?_⟩
        · have hwhite := hafter [] (masked y) hy' 'g' hg
          cases hwhite
        · rw [raw_append,raw_kept,hv',raw_cons,raw_append,raw_kept,replace_match]
      · obtain ⟨v',hexact,hv'⟩ := ih v.length (by simp at hn; omega) hrest
          (fun e he => hquotes e (List.mem_cons_of_mem _ he))
          (fun a q hq => hafter (shown e ++ a) q (by rw [masked_cons,hq]; simp)) rfl
        refine ⟨e::v',.same e (fun hquote hprefix => ?_) hexact,?_⟩
        · have hvisible : ∀ c ∈ k ++ ['"'], Visible c := by
            intro c hc
            rcases List.mem_append.mp hc with hc | hc
            · exact hk.visible c hc
            · obtain rfl := List.mem_singleton.mp hc
              exact ⟨by decide,by decide⟩
          obtain ⟨r,rfl⟩ := visible_prefix hvisible hprefix
          refine hlit ⟨raw r,?_⟩
          rw [hquote,raw_cons,raw_append,raw_kept]
          rfl
        · rw [raw_cons,hv',raw_cons]
          rw [raw_cons] at hlit
          rw [replace_other hlit]

/-- What a plain list is, in its marks: plain items where it is kept, no quote where it is not. -/
structure PlainMarks (v : List Mark) : Prop where
  items : Items (masked v)
  comments : ∀ e ∈ v, e.2 = true → e.1 ≠ '"'

/-- No list opens inside of a plain one. -/
theorem unassigned_plain {v t : List Mark} (hv : Items (masked v)) (hfree : (']',false) ∉ v)
    (hall : ∀ u ∈ values (v ++ (']',false)::t), Items (masked u)) :
    Unassigned v ((']',false)::t) := by
  intro x y hxy hne
  by_contra hsome
  obtain ⟨⟨r,u⟩,hassigned⟩ := Option.ne_none_iff_exists'.mp hsome
  obtain ⟨w,z,hy,hw,rfl,hu⟩ := assigned_list.mp hassigned
  have hin : u ∈ values (v ++ (']',false)::t) := by
    rw [hxy,List.append_assoc]
    refine values_suffix x ?_
    obtain ⟨e,y,rfl⟩ := List.exists_cons_of_ne_nil hne
    rw [List.cons_append] at hassigned ⊢
    rw [values,found,hassigned]
    exact List.mem_cons_self
  -- the value ends at the same bracket, so the plain list goes on from the one opened in it
  have hno : (']',false) ∉ w ++ u := by
    rw [List.mem_append,not_or]
    exact ⟨opener_free hw (by decide) rfl (by decide) (by decide),hu⟩
  have hcut : y = w ++ u := by
    have hfree' : (']',false) ∉ y := fun h => hfree (hxy ▸ List.mem_append_right x h)
    rw [← List.append_assoc] at hy
    rcases List.append_eq_append_iff.mp hy with ⟨m,hwu,hz⟩ | ⟨m,hym,hz⟩
    · cases m with
      | nil => simpa using hwu.symm
      | cons d m =>
        obtain ⟨rfl,-⟩ := List.cons.inj hz
        exact absurd (hwu ▸ List.mem_append_right y List.mem_cons_self) hno
    · cases m with
      | nil => simpa using hym
      | cons d m =>
        obtain ⟨rfl,-⟩ := List.cons.inj hz
        exact absurd (hym ▸ List.mem_append_right _ List.mem_cons_self) hfree'
  obtain ⟨s,q,rfl,-,-⟩ := hw
  have hopen : masked v = masked (x ++ (kept pluginsMarker ++ (s ++ ('=',false) :: q))) ++
      '[' :: masked u := by
    have hlast : masked [listForm.opens] = ['['] := rfl
    rw [hxy,hcut]
    simp only [masked_append,masked_cons,List.append_assoc,List.cons_append]
    rw [show masked ([] : List Mark) = [] from rfl]
    rfl
  exact hv.unopened hopen (hall u hin)

theorem marks_suffix {p : Phase} {x es : List Mark} (h : marks p (raw (x ++ es)) = x ++ es) :
    ∃ q, marks q (raw es) = es := by
  induction x generalizing p with
  | nil => exact ⟨p,h⟩
  | cons e x ih => exact ih (List.cons.inj h).2

/-- Plain lists are edited one by one, in the order of the ranges found for them. -/
theorem exists_edit {k : List Char} (hk : Word k) (hne : k ≠ []) (l : List Char) {es : List Mark}
    {p : Phase} (hscan : marks p (raw es) = es) (hplain : ∀ v ∈ values es, PlainMarks v) :
    ∃ fs vs ps, Edited k l es fs vs ∧ (∀ q ∈ vs, Exact k l q.1 q.2) ∧ raw es = assemble ps ∧
      (∀ o, offsets o ps = listRanges (o + size (raw es)) es) ∧
      raw fs = edited (replace ('"' :: (k ++ ['"'])) ('"' :: (l ++ ['"'])) 0) ps := by
  induction hn : es.length using Nat.strong_induction_on generalizing es p with
  | _ n ih =>
    cases hes : es with
    | nil => exact ⟨[],[],[],.nil,by simp,rfl,fun _ => rfl,rfl⟩
    | cons e es' =>
      subst hes
      cases hassigned : assigned listForm (e::es') with
      | none =>
        have hfound : found listForm (e::es') = found listForm es' := by
          rw [found,hassigned]
          rfl
        obtain ⟨he,hrest⟩ := List.cons.inj hscan
        obtain ⟨fs,vs,ps,hedit,hexact,hraw,hoffsets,hout⟩ := ih es'.length (by simp at hn; omega) hrest
          (fun v hv => hplain v (by rw [values,hfound]; exact hv)) rfl
        refine ⟨e::fs,vs,(false,[e.1])::ps,.gap e hassigned hedit,hexact,?_,fun o => ?_,?_⟩
        · rw [raw_cons,hraw]
          rfl
        · rw [offsets,hoffsets,listRanges,listRanges,ranges,ranges,hfound,raw_cons]
          simp [Nat.add_assoc]
        · rw [raw_cons,hout]
          rfl
      | some q =>
        obtain ⟨r,v⟩ := q
        obtain ⟨w,z,hw',hw,rfl,hv⟩ := assigned_list.mp hassigned
        have hitems : ∀ u ∈ values (v ++ (']',false)::z), Items (masked u) := fun u hu =>
          (hplain u (by rw [hw']; exact values_suffix w hu)).items
        have hv' : PlainMarks v := hplain v (by rw [values,found,hassigned]; exact List.mem_cons_self)
        have hno := unassigned_plain hv'.items hv hitems
        have hfound : found listForm (e::es') = (v ++ (']',false)::z,v) :: found listForm z := by
          rw [hw',found_list hw hv hno]
        rw [hw'] at hscan
        obtain ⟨q,hq⟩ := marks_suffix hscan
        obtain ⟨q',hz⟩ := marks_suffix hq
        obtain ⟨v',hexact,hout⟩ := exists_exact hk l hq hv'.comments fun a b h =>
          hv'.items.after hk hne h
        have hlength : z.length < n := by
          rw [← hn,hw']
          simp
          omega
        obtain ⟨fs,vs,ps,hedit,hexacts,hraw,hoffsets,hrest⟩ := ih z.length hlength
          (p := (turn q' ']' (raw z).head?).1) (List.cons.inj hz).2
          (fun u hu => hplain u (by rw [values,hfound]; exact List.mem_cons_of_mem _ hu)) rfl
        refine ⟨w ++ (v' ++ (']',false)::fs),(v,v')::vs,
          (false,raw w)::(true,raw v)::(false,[']'])::ps,?_,?_,?_,fun o => ?_,?_⟩
        · rw [hw']
          exact .list hw hv hno hexact.swapped hedit
        · rintro q (_ | ⟨_,hq⟩)
          · exact hexact
          · exact hexacts q hq
        · rw [hw',raw_append,raw_append,raw_cons,hraw]
          rfl
        · rw [listRanges,ranges,hfound,List.map_cons,offsets,offsets,offsets,hoffsets,listRanges,
            ranges,hw']
          have htotal : o + size (raw (w ++ (v ++ (']',false)::z))) =
              o + size (raw w) + size (raw v) + size [']'] + size (raw z) := by
            simp only [raw_append,raw_cons,size_append,size_cons,size_nil]
            omega
          have hfirst : o + size (raw (w ++ (v ++ (']',false)::z))) -
              size (raw (v ++ (']',false)::z)) = o + size (raw w) := by
            simp only [raw_append,size_append]
            omega
          rw [hfirst,htotal]
        · rw [raw_append,raw_append,raw_cons,hrest,hout]
          rfl

/-! ## The plugins of a list -/

/-- How the modules of plugins begin. -/
def host : List Char := "github.com/".toList

theorem literalMarker_eq : literalMarker = '"' :: host := rfl

theorem host_unquoted : '"' ∉ host := by decide

/-- The plugin that the text of a literal names, if it names one. -/
def pluginOf (file : String) (t : List Char) : Option Plugin :=
  if host <+: t then do
    let (module,version) ← Text.splitOnce '@' t
    if version.isEmpty then none else some ⟨file,module,version⟩
  else none

/-- The plugins of a list, literal by literal. -/
def entries (file : String) : List Char → List Plugin
  | [] => []
  | c::cs => (if c = '"' ∧ '"' ∈ cs then pluginOf file (cs.takeWhile (· ≠ '"')) else none).toList ++
      entries file cs

theorem takeWhile_first {a b : List Char} (ha : '"' ∉ a) :
    (a ++ '"' :: b).takeWhile (· ≠ '"') = a := by
  have hne : ∀ c ∈ a, decide (c ≠ '"') = true := fun c hc => by
    simpa using fun heq : c = '"' => ha (heq ▸ hc)
  rw [List.takeWhile_append_of_pos hne]
  simp

/-- A text without quotes is a prefix of what stands before the first quote. -/
theorem prefix_unquoted {a b p : List Char} (hp : '"' ∉ p) : p <+: a ++ '"' :: b ↔ p <+: a := by
  refine ⟨fun h => ?_,fun h => h.trans (List.prefix_append _ _)⟩
  rcases List.prefix_or_prefix_of_prefix h (List.prefix_append a ('"' :: b)) with h' | ⟨t,rfl⟩
  · exact h'
  · obtain ⟨u,hu⟩ := h
    cases t with
    | nil => simp
    | cons c t =>
      rw [List.append_assoc] at hu
      obtain ⟨rfl,-⟩ := List.cons.inj (List.append_cancel_left hu)
      exact absurd (List.mem_append_right a List.mem_cons_self) hp

theorem pluginAt_eq (file : String) (x y : List Char) (h : literalMarker <+: '"' :: y) :
    pluginAt file (x ++ '"' :: y) (size x) =
      some (if '"' ∈ y then pluginOf file (y.takeWhile (· ≠ '"')) else none) := by
  have hslice : sliceFrom (x ++ '"' :: y) (size x + 1) = some y := by
    rw [show size x + 1 = size (x ++ ['"']) by simp; rfl,← List.singleton_append,
      ← List.append_assoc,sliceFrom_append]
  rw [literalMarker_eq] at h
  have hhost : host <+: y := (List.cons_prefix_cons.mp h).2
  unfold pluginAt
  rw [hslice,Option.bind_eq_bind,Option.bind_some]
  by_cases hmem : '"' ∈ y
  · obtain ⟨a,b,rfl,ha⟩ := exists_first hmem
    have hzero : slice (a ++ '"' :: b) 0 (size a) = some a := by
      have hall := slice_append [] a ('"' :: b)
      simpa using hall
    have hpre : host <+: a := (prefix_unquoted host_unquoted).mp hhost
    rw [find_append ha]
    simp only [hzero,Option.bind_some]
    rw [if_pos (by simp),takeWhile_first ha,pluginOf,if_pos hpre]
  · rw [find_none hmem,if_neg hmem]

theorem listPlugins_fold (file : String) (x y : List Char) :
    ∃ found, (occurrences literalMarker (size x) y).mapM (pluginAt file (x ++ y)) = some found ∧
      found.reduceOption = entries file y := by
  induction y generalizing x with
  | nil => exact ⟨[],rfl,rfl⟩
  | cons c y ih =>
    obtain ⟨found,hfound,hentries⟩ := ih (x ++ [c])
    have hassoc : x ++ [c] ++ y = x ++ c::y := by simp
    have hsize : size (x ++ [c]) = size x + c.utf8Size := by simp
    rw [hassoc,hsize] at hfound
    rw [occurrences,entries]
    by_cases hprefix : literalMarker <+: c::y
    · have hquote : '"' = c := by
        rw [literalMarker_eq] at hprefix
        exact (List.cons_prefix_cons.mp hprefix).1
      subst hquote
      rw [if_pos (List.isPrefixOf_iff_prefix.mpr hprefix),List.mapM_cons,pluginAt_eq file x y hprefix,
        hfound]
      refine ⟨_,rfl,?_⟩
      by_cases hmem : '"' ∈ y
      · rw [if_pos hmem,if_pos ⟨rfl,hmem⟩]
        cases pluginOf file (y.takeWhile (· ≠ '"')) with
        | none => rw [List.reduceOption_cons_of_none,hentries]; rfl
        | some q => rw [List.reduceOption_cons_of_some,hentries]; rfl
      · rw [if_neg hmem,if_neg fun h => hmem h.2,List.reduceOption_cons_of_none,hentries]
        rfl
    · rw [if_neg (fun h => hprefix (List.isPrefixOf_iff_prefix.mp h))]
      refine ⟨found,hfound,?_⟩
      have hnone : (if c = '"' ∧ '"' ∈ y then pluginOf file (y.takeWhile (· ≠ '"')) else none) =
          none := by
        split
        · rename_i h
          obtain ⟨rfl,hmem⟩ := h
          obtain ⟨a,b,rfl,ha⟩ := exists_first hmem
          rw [takeWhile_first ha,pluginOf,if_neg]
          rw [literalMarker_eq] at hprefix
          exact fun hpre => hprefix (List.cons_prefix_cons.mpr
            ⟨rfl,(prefix_unquoted host_unquoted).mpr hpre⟩)
        · rfl
      rw [hnone,hentries]
      rfl

theorem listPlugins_eq (file : String) (list : List Char) :
    listPlugins file list = some (entries file list) := by
  obtain ⟨found,hfound,hentries⟩ := listPlugins_fold file [] list
  rw [literalMarker_eq] at hfound
  unfold listPlugins
  rw [literalMarker_eq,matchIndices_eq host_unquoted]
  simp only [size_nil,List.nil_append] at hfound
  rw [hfound,Option.bind_eq_bind,Option.bind_some,hentries]

/-- Extraction finds all its slices in every text. -/
theorem extractPlugins_eq (source : List Char) (file : String) : extractPlugins source file =
    some ((values (marks .code source)).flatMap fun v => entries file (masked v)) := by
  have hmask : maskComments (masked (marks .code source)) = some (masked (marks .code source)) := by
    rw [maskComments_eq]
    exact congrArg some (masked_again .code source)
  have hvalues : assignmentValues (masked (marks .code source)) pluginsMarker '[' ']' =
      some (listRanges (size source) (marks .code source)) := by
    rw [← pluginLists source]
    unfold assignmentValues
    rw [hmask,maskComments_eq source]
  have hslices : ∀ x es : List Mark, (listRanges (size (raw (x ++ es))) es).mapM
      (fun r => slice (masked (x ++ es)) r.1 r.2) = some ((values es).map masked) := by
    intro x es
    induction es generalizing x with
    | nil => rfl
    | cons e es ih =>
      have hrest := ih (x ++ [e])
      have hassoc : x ++ [e] ++ es = x ++ e::es := by simp
      rw [hassoc] at hrest
      rw [listRanges,ranges_cons,values,found]
      cases hassigned : assigned listForm (e::es) with
      | none => exact hrest
      | some q =>
        obtain ⟨r,v⟩ := q
        obtain ⟨w,z,hes,-,rfl,-⟩ := assigned_list.mp hassigned
        have hfirst : size (raw (x ++ e::es)) - size (raw (v ++ (']',false)::z)) =
            size (masked (x ++ w)) := by
          rw [size_masked,hes]
          simp only [raw_append,size_append]
          omega
        have hslice : slice (masked (x ++ e::es)) (size (masked (x ++ w)))
            (size (masked (x ++ w)) + size (raw v)) = some (masked v) := by
          have h := slice_append (masked (x ++ w)) (masked v) (masked ((']',false)::z))
          rw [size_masked v] at h
          rw [hes]
          simpa using h
        have hcons : ∀ (q : ℕ × ℕ) (t : List Char) (rs : List (ℕ × ℕ)) (ts : List (List Char)),
            slice (masked (x ++ e::es)) q.1 q.2 = some t →
            rs.mapM (fun r => slice (masked (x ++ e::es)) r.1 r.2) = some ts →
            (q::rs).mapM (fun r => slice (masked (x ++ e::es)) r.1 r.2) = some (t::ts) := by
          intro q t rs ts hq hrs
          rw [List.mapM_cons,hq,hrs]
          rfl
        refine hcons _ _ _ _ ?_ hrest
        rw [← hfirst] at hslice
        exact hslice
  have hlists : ∀ vs : List (List Mark), (vs.map masked).mapM (listPlugins file) =
      some (vs.map fun v => entries file (masked v)) := by
    intro vs
    induction vs with
    | nil => rfl
    | cons v vs ih =>
      rw [List.map_cons,List.mapM_cons,listPlugins_eq,ih]
      rfl
  have hall := hslices [] (marks .code source)
  simp only [List.nil_append,raw_marks] at hall
  unfold extractPlugins
  simp only [maskComments_eq source,hvalues,hall,hlists,Option.bind_eq_bind,Option.bind_some]
  rfl

/-! ## Entries of an edited list -/

theorem entries_blank (file : String) {a : List Char} (ha : '"' ∉ a) (b : List Char) :
    entries file (a ++ b) = entries file b := by
  induction a with
  | nil => rfl
  | cons c a ih =>
    rw [List.mem_cons,not_or] at ha
    rw [List.cons_append,entries,if_neg fun h => ha.1 h.1.symm,ih ha.2]
    rfl

theorem Swapped.first_quote {k l : List Char} {es fs : List Mark} (h : Swapped k l es fs) :
    (masked es).takeWhile (· ≠ '"') = (masked fs).takeWhile (· ≠ '"') ∧
      ('"' ∈ masked es ↔ '"' ∈ masked fs) := by
  induction h with
  | nil => exact ⟨rfl,Iff.rfl⟩
  | swap h ih => simp [shown_kept]
  | same e h ih =>
    rw [masked_cons,masked_cons]
    by_cases hquote : '"' ∈ shown e
    · obtain ⟨a,b,he,ha⟩ := exists_first hquote
      rw [he]
      simp only [List.append_assoc,List.cons_append,takeWhile_first ha]
      simp
    · have hne : ∀ c ∈ shown e, decide (c ≠ '"') = true := fun c hc => by
        simpa using fun heq : c = '"' => hquote (heq ▸ hc)
      rw [List.takeWhile_append_of_pos hne,List.takeWhile_append_of_pos hne,ih.1]
      exact ⟨rfl,by rw [List.mem_append,List.mem_append,ih.2]⟩

/-- The plugin with the new version, if it is the one at the old one. -/
def update (module old new : List Char) (p : Plugin) : Plugin :=
  if p.module = module ∧ p.version = old then { p with version := new } else p

section Versions
variable {module old new : List Char}

theorem pluginOf_key (file : String) (hat : '@' ∉ module) (hold : old ≠ []) :
    pluginOf file (module ++ '@' :: old) =
      if host <+: module then some ⟨file,module,old⟩ else none := by
  have hhost : host <+: module ++ '@' :: old ↔ host <+: module := by
    refine ⟨fun h => ?_,fun h => h.trans (List.prefix_append _ _)⟩
    rcases List.prefix_or_prefix_of_prefix h (List.prefix_append module ('@' :: old)) with h' | ⟨t,ht⟩
    · exact h'
    · cases t with
      | nil => exact ⟨[],by simpa using ht.symm⟩
      | cons c t =>
        obtain ⟨u,hu⟩ := h
        rw [← ht,List.append_assoc] at hu
        obtain ⟨rfl,-⟩ := List.cons.inj (List.append_cancel_left hu)
        have hin : '@' ∈ host := ht ▸ List.mem_append_right module List.mem_cons_self
        exact absurd hin (by decide)
  obtain ⟨c,cs,rfl⟩ := List.exists_cons_of_ne_nil hold
  unfold pluginOf
  by_cases h : host <+: module
  · rw [if_pos (hhost.mpr h),if_pos h,Text.splitOnce_append hat]
    rfl
  · rw [if_neg (fun h' => h (hhost.mp h')),if_neg h]

theorem splitOnce_some {sep : Char} {cs a b : List Char} (h : Text.splitOnce sep cs = some (a,b)) :
    cs = a ++ sep::b := by
  by_cases hmem : sep ∈ cs
  · obtain ⟨x,y,rfl,hx⟩ := exists_first hmem
    rw [Text.splitOnce_append hx] at h
    obtain ⟨rfl,rfl⟩ := Prod.mk.inj (Option.some.inj h)
    rfl
  · rw [Text.splitOnce,if_neg hmem] at h
    cases h

theorem pluginOf_some {file : String} {t : List Char} {p : Plugin} (h : pluginOf file t = some p) :
    t = p.module ++ '@' :: p.version := by
  unfold pluginOf at h
  split at h
  · obtain ⟨⟨m,v⟩,hsplit,h⟩ := Option.bind_eq_some_iff.mp h
    simp only at h
    split at h
    · cases h
    · obtain rfl := Option.some.inj h
      exact splitOnce_some hsplit
  · cases h

/-- What follows a literal begins no plugin. -/
theorem pluginOf_next (file : String) {es : List Mark} (hnext : (masked es).head? ≠ some 'g') :
    pluginOf file ((masked es).takeWhile (· ≠ '"')) = none := by
  unfold pluginOf
  rw [if_neg]
  rintro ⟨t,ht⟩
  cases hes : masked es with
  | nil =>
    rw [hes] at ht
    cases ht
  | cons c cs =>
    rw [hes] at ht hnext
    have hc : c ≠ 'g' := fun h => hnext (congrArg some h)
    rw [List.takeWhile_cons] at ht
    split at ht
    · exact hc (List.cons.inj ht).1.symm
    · cases ht

theorem entries_literal (file : String) {k : List Char} (hk : '"' ∉ k) {es : List Mark}
    (hnext : (masked es).head? ≠ some 'g') :
    entries file (masked (kept ('"' :: (k ++ ['"'])) ++ es)) =
      (pluginOf file k).toList ++ entries file (masked es) := by
  have hmasked : masked (kept ('"' :: (k ++ ['"'])) ++ es) = '"' :: (k ++ '"' :: masked es) := by
    rw [masked_append,masked_kept]
    simp
  rw [hmasked,entries,if_pos ⟨rfl,by simp⟩,takeWhile_first hk,entries_blank file hk,entries,
    pluginOf_next file hnext]
  simp

/-- The plugins of an edited list are those of the list with the version updated. -/
theorem Exact.entries (file : String) (hk : '"' ∉ module ++ '@' :: old)
    (hl : '"' ∉ module ++ '@' :: new) (hat : '@' ∉ module) (hold : old ≠ []) (hnew : new ≠ [])
    {es fs : List Mark} (h : Exact (module ++ '@' :: old) (module ++ '@' :: new) es fs) :
    CaddyPlugins.entries file (masked fs) =
      (CaddyPlugins.entries file (masked es)).map (update module old new) := by
  induction h with
  | nil => rfl
  | @swap es fs hnext h ih =>
    have hnext' : (masked fs).head? ≠ some 'g' := by
      intro hg
      refine hnext (Eq.trans ?_ hg)
      have hhead := h.swapped.head
      cases es with
      | nil =>
        cases fs with
        | nil => rfl
        | cons f fs => cases hhead
      | cons e es =>
        cases fs with
        | nil => cases hhead
        | cons f fs =>
          obtain rfl : e = f := by simpa using hhead
          obtain ⟨c,b⟩ := e
          cases b with
          | false => rw [masked_cons,masked_cons,shown_kept]; rfl
          | true =>
            obtain ⟨x,xs,hx,-⟩ := shown_blanked c
            rw [masked_cons,masked_cons,hx]
            rfl
    rw [entries_literal file hk hnext,entries_literal file hl hnext',List.map_append,ih,
      pluginOf_key file hat hold,pluginOf_key file hat hnew]
    by_cases hhost : host <+: module
    · rw [if_pos hhost,if_pos hhost]
      simp [update]
    · rw [if_neg hhost,if_neg hhost]
      rfl
  | @same e es fs hno h ih =>
    obtain ⟨c,b⟩ := e
    cases b with
    | true =>
      obtain ⟨x,xs,hx,hxs⟩ := shown_blanked c
      have hfree : '"' ∉ x::xs := fun hmem => by
        rcases hxs _ hmem with h | h <;> cases h
      rw [masked_cons,masked_cons,hx,entries_blank file hfree,entries_blank file hfree,ih]
    | false =>
      obtain ⟨htake,hmem⟩ := h.swapped.first_quote
      rw [masked_cons,masked_cons,shown_kept,List.singleton_append,List.singleton_append,
        CaddyPlugins.entries,CaddyPlugins.entries,← htake,List.map_append,ih]
      congr 1
      by_cases hquote : c = '"' ∧ '"' ∈ masked es
      · rw [if_pos hquote,if_pos ⟨hquote.1,hmem.mp hquote.2⟩]
        cases hplugin : pluginOf file ((masked es).takeWhile (· ≠ '"')) with
        | none => rfl
        | some p =>
          have hother : ¬ (p.module = module ∧ p.version = old) := by
            rintro ⟨rfl,rfl⟩
            obtain ⟨a,b,hes,ha⟩ := exists_first hquote.2
            have ht := pluginOf_some hplugin
            rw [hes,takeWhile_first ha] at ht
            refine hno (by rw [hquote.1]) ⟨b,?_⟩
            rw [hes,ht]
            simp
          simp [update,hother]
      · rw [if_neg hquote,if_neg fun h => hquote ⟨h.1,hmem.mpr h.2⟩]
        rfl

end Versions

/-! ## Plain texts -/

/-- A plugin list of white space, comments without quotes and literals that white space separates:
its text as the mask shows it, where comments are blank, and as it is. -/
structure PlainList (visible text : List Char) : Prop where
  items : Items visible
  comments : text.count '"' = visible.count '"'

/-- Every plugin list of the text is plain. -/
def Plain (source : List Char) : Prop := ∃ visible ranges, maskComments source = some visible ∧
  assignmentValues source pluginsMarker '[' ']' = some ranges ∧
  ∀ r ∈ ranges, ∃ v t, slice visible r.1 r.2 = some v ∧ slice source r.1 r.2 = some t ∧ PlainList v t

theorem count_masked (es : List Mark) : (masked es).count '"' ≤ (raw es).count '"' ∧
    ((raw es).count '"' = (masked es).count '"' → ∀ e ∈ es, e.2 = true → e.1 ≠ '"') := by
  induction es with
  | nil => exact ⟨le_rfl,by simp⟩
  | cons e es ih =>
    obtain ⟨hle,heq⟩ := ih
    obtain ⟨c,b⟩ := e
    cases b with
    | false =>
      rw [masked_cons,shown_kept,raw_cons,List.singleton_append,List.count_cons,List.count_cons]
      refine ⟨by simp only at hle ⊢; omega,fun h e he hb => ?_⟩
      rcases List.mem_cons.mp he with rfl | he
      · cases hb
      · exact heq (by simp only at h; omega) e he hb
    | true =>
      obtain ⟨x,xs,hx,hxs⟩ := shown_blanked c
      have hzero : (x::xs).count '"' = 0 := List.count_eq_zero.mpr fun h => by
        rcases hxs _ h with h | h <;> cases h
      rw [masked_cons,hx,raw_cons,List.count_append,hzero,List.count_cons]
      refine ⟨by omega,fun h e he hb => ?_⟩
      rcases List.mem_cons.mp he with rfl | he
      · rintro hc
        simp only at h hc
        rw [if_pos (by simp [hc])] at h
        omega
      · exact heq (by omega) e he hb

theorem found_split {es r v : List Mark} (h : (r,v) ∈ found listForm es) :
    ∃ x z, es = x ++ r ∧ r = v ++ (']',false)::z := by
  induction es with
  | nil => cases h
  | cons e es ih =>
    rw [found,List.mem_append,Option.mem_toList] at h
    rcases h with h | h
    · obtain ⟨w,z,hes,-,hr,-⟩ := assigned_list.mp h
      exact ⟨w,z,hes,hr⟩
    · obtain ⟨x,z,rfl,hr⟩ := ih h
      exact ⟨e::x,z,rfl,hr⟩

theorem plain_marks {source : List Char} (h : Plain source) :
    ∀ v ∈ values (marks .code source), PlainMarks v := by
  obtain ⟨visible,ranges,hmask,hranges,hlists⟩ := h
  rw [maskComments_eq] at hmask
  rw [pluginLists] at hranges
  obtain rfl := Option.some.inj hmask
  obtain rfl := Option.some.inj hranges
  intro v hv
  obtain ⟨⟨r,v'⟩,hfound,rfl⟩ := List.mem_map.mp hv
  obtain ⟨x,z,hsplit,rfl⟩ := found_split hfound
  have htotal : size source - size (raw (v' ++ (']',false)::z)) = size (raw x) := by
    rw [← raw_marks .code source,hsplit,raw_append,size_append]
    omega
  obtain ⟨u,t,hu,ht,hplain⟩ := hlists _ (List.mem_map.mpr ⟨_,hfound,rfl⟩)
  simp only [htotal] at hu ht
  have hraw : source = raw x ++ (raw v' ++ raw ((']',false)::z)) := by
    rw [← raw_append,← raw_append,← hsplit,raw_marks]
  have hvisible : slice (masked (marks .code source)) (size (raw x)) (size (raw x) + size (raw v')) =
      some (masked v') := by
    rw [hsplit,masked_append,masked_append,← size_masked x,← size_masked v',slice_append]
  rw [hvisible] at hu
  rw [hraw,slice_append] at ht
  obtain rfl := Option.some.inj hu
  obtain rfl := Option.some.inj ht
  exact ⟨hplain.items,(count_masked v').2 hplain.comments⟩

theorem bumpVersion_plain {source module old new : List Char} (h : Plain source)
    (hclean : Word (module ++ (old ++ new))) (hat : '@' ∉ module) (hold : old ≠ []) (hnew : new ≠ [])
    (file : String) : ∃ before out, extractPlugins source file = some before ∧
      bumpVersion source module old new = some out ∧
      extractPlugins out file = some (before.map (update module old new)) := by
  have hmodule : Word module := fun c hc => hclean c (by simp [hc])
  have hkey {version : List Char} (hversion : Word version) : Word (module ++ '@' :: version) := by
    intro c hc
    rcases List.mem_append.mp hc with hc | hc
    · exact hmodule c hc
    · rcases List.mem_cons.mp hc with rfl | hc
      · exact ⟨by decide,rfl⟩
      · exact hversion c hc
  have hk : Word (module ++ '@' :: old) := hkey fun c hc => hclean c (by simp [hc])
  have hl : Word (module ++ '@' :: new) := hkey fun c hc => hclean c (by simp [hc])
  obtain ⟨fs,vs,ps,hedit,hexact,hraw,hoffsets,hout⟩ :=
    exists_edit hk (by simp) (module ++ '@' :: new) (p := .code)
      (by rw [raw_marks]) (plain_marks h)
  rw [raw_marks] at hraw
  have hranges : assignmentValues source pluginsMarker '[' ']' = some (offsets 0 ps) := by
    rw [pluginLists,hoffsets,raw_marks,Nat.zero_add]
  have hmarks : marks .code (raw fs) = fs :=
    marks_swapped hk hl hedit.swapped (by rw [raw_marks])
  obtain ⟨hbefore,hafter⟩ := hedit.values hk hl
  refine ⟨_,raw fs,extractPlugins_eq source file,?_,?_⟩
  · rw [bumpVersion_parts hraw hranges,hout]
    rfl
  · rw [extractPlugins_eq,hmarks,hbefore,hafter,List.map_flatMap,List.flatMap_map,List.flatMap_map]
    congr 1
    refine List.flatMap_congr fun q hq => ?_
    exact (hexact q hq).entries file (hk.not_mem (by decide)) (hl.not_mem (by decide)) hat hold hnew

/-- Masking keeps every text's length, line ends and UTF-8 and is idempotent.  Where no list opens
in another one, a bump finds all its slices and changes only complete literals of the version in
the values of lists.  Where the lists are plain, the plugins extracted behind it are those
extracted before it with exactly that version updated. -/
theorem edits_local (source module old new : List Char) (file : String) :
    (∃ out, maskComments source = some out ∧ size out = size source ∧
      lineEnds out = lineEnds source ∧ maskComments out = some out) ∧
    (Separate source → ∃ ps f, source = assemble ps ∧
      assignmentValues source pluginsMarker '[' ']' = some (offsets 0 ps) ∧
      (∀ v, Replaced (literal module old) (literal module new) v (f v)) ∧
      bumpVersion source module old new = some (edited f ps)) ∧
    (Plain source → Word (module ++ (old ++ new)) → '@' ∉ module → old ≠ [] → new ≠ [] →
      ∃ before out, extractPlugins source file = some before ∧
        bumpVersion source module old new = some out ∧
        extractPlugins out file = some (before.map (update module old new))) := by
  refine ⟨maskComments_keeps source,fun hsep => ?_,fun hplain hclean hat hold hnew => ?_⟩
  · obtain ⟨ps,hsource,hranges,hbump⟩ := bumpVersion_local hsep module old new
    exact ⟨ps,_,hsource,hranges,fun v => replaced_replace _ (by simp [literal]) v,hbump⟩
  · exact bumpVersion_plain hplain hclean hat hold hnew file

/-- A list that opens in another one's value is sliced backwards, and an emptied version is no
plugin any more. -/
theorem nested_unsliced :
    bumpVersion "caddy.plugins=[caddy.plugins=[ ]".toList "m".toList "v".toList "w".toList = none ∧
    ∃ before out, extractPlugins "caddy.plugins=[\"github.com/a@v\"]".toList "x.nix" = some before ∧
      bumpVersion "caddy.plugins=[\"github.com/a@v\"]".toList "github.com/a".toList "v".toList [] =
        some out ∧
      extractPlugins out "x.nix" ≠
        some (before.map (update "github.com/a".toList "v".toList [])) := by
  constructor
  · unfold bumpVersion
    rw [pluginLists]
    decide +kernel
  · refine ⟨[⟨"x.nix","github.com/a".toList,"v".toList⟩],"caddy.plugins=[\"github.com/a@\"]".toList,
      ?_,?_,?_⟩
    · rw [extractPlugins_eq]
      decide +kernel
    · unfold bumpVersion
      rw [pluginLists]
      decide +kernel
    · rw [extractPlugins_eq]
      decide +kernel

def sampleSource : List Char := "caddy.plugins=[\"github.com/a@v1\" # x\n]".toList

theorem sample_separate : Separate sampleSource := by
  intro ranges h
  rw [pluginLists] at h
  obtain rfl := Option.some.inj h
  decide +kernel

theorem sample_plain : Plain sampleSource := by
  have hbody : Body "github.com/a@v1".toList := by
    repeat' first | exact .nil | refine .char (by decide) (by decide) ?_
  have hblank : ∀ cs : List Char, cs.all Review.whitespace = true → Items cs := by
    intro cs h
    induction cs with
    | nil => exact .nil
    | cons c cs ih =>
      rw [List.all_cons,Bool.and_eq_true] at h
      exact .space h.1 (ih h.2)
  have hitems : Items ('"' :: ("github.com/a@v1".toList ++ '"' :: [' ',' ',' ',' ','\n'])) := by
    refine .literal hbody (hblank _ rfl) fun c hc => ?_
    obtain rfl : ' ' = c := by simpa using hc
    rfl
  have hranges : listRanges (size sampleSource) (marks .code sampleSource) = [(15,37)] := by
    decide +kernel
  refine ⟨"caddy.plugins=[\"github.com/a@v1\"    \n]".toList,[(15,37)],?_,?_,fun r hr => ?_⟩
  · rw [maskComments_eq]
    decide +kernel
  · rw [pluginLists,hranges]
  · obtain rfl := List.mem_singleton.mp hr
    refine ⟨"\"github.com/a@v1\"    \n".toList,"\"github.com/a@v1\" # x\n".toList,by decide +kernel,
      by decide +kernel,?_,by decide +kernel⟩
    exact hitems

theorem sample_edited :
    (∃ ps f, sampleSource = assemble ps ∧
      assignmentValues sampleSource pluginsMarker '[' ']' = some (offsets 0 ps) ∧
      (∀ v, Replaced (literal "github.com/a".toList "v1".toList)
        (literal "github.com/a".toList "v2".toList) v (f v)) ∧
      bumpVersion sampleSource "github.com/a".toList "v1".toList "v2".toList = some (edited f ps)) ∧
    ∃ before out, extractPlugins sampleSource "x.nix" = some before ∧
      bumpVersion sampleSource "github.com/a".toList "v1".toList "v2".toList = some out ∧
      extractPlugins out "x.nix" =
        some (before.map (update "github.com/a".toList "v1".toList "v2".toList)) := by
  have hword : Word ("github.com/a".toList ++ ("v1".toList ++ "v2".toList)) := by
    intro c hc
    have hall : ("github.com/a".toList ++ ("v1".toList ++ "v2".toList)).all (fun c =>
        c ∉ ['"','\'','[',']','\\','#','*'] ∧ Review.whitespace c = false) = true := rfl
    have hclean : c ∉ ['"','\'','[',']','\\','#','*'] ∧ Review.whitespace c = false :=
      of_decide_eq_true (List.all_eq_true.mp hall c hc)
    exact hclean
  have h := edits_local sampleSource "github.com/a".toList "v1".toList "v2".toList "x.nix"
  exact ⟨h.2.1 sample_separate,h.2.2 sample_plain hword (by decide) (by decide) (by decide)⟩

end CaddyPlugins
end CanixToolbelt
