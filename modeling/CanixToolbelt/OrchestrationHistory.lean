import CanixToolbelt.OrchestrationDriver
import Mathlib.Data.List.TakeWhile

/-! What a bounded search through a paged history returns, for every host that answers it, and
for a host that serves one history page by page. -/
namespace CanixToolbelt
namespace Orchestration
namespace Driver

open Effect Script Fallible Json Canonical

def messageTime (m : Json) : Option ℕ := ((m.get "time").get "created").asU64

/-! ## The messages of a page -/

/-- Messages of one kind, newest first and all under new identities. -/
structure Coherent (kind : String) (time : ℕ) (ids : List String) (ms : List Json)
    (names : List String) (times : List ℕ) : Prop where
  named : ms.map messageId = names.map some
  timed : ms.map messageTime = times.map some
  typed : ∀ m ∈ ms, m.get "type" = .str kind
  ordered : (time::times).Pairwise (· ≥ ·)
  nodup : names.Nodup
  fresh : ∀ n ∈ names, n ∉ ids

theorem coherent_nil (kind : String) (time : ℕ) (ids : List String) :
    Coherent kind time ids [] [] [] :=
  ⟨rfl,rfl,nofun,List.pairwise_singleton _ _,List.nodup_nil,nofun⟩

theorem coherent_cons {kind : String} {time : ℕ} {ids : List String} {m : Json} {ms : List Json}
    {names : List String} {times : List ℕ} : Coherent kind time ids (m::ms) names times ↔
      ∃ id t names' times', names = id::names' ∧ times = t::times' ∧ messageId m = some id ∧
        messageTime m = some t ∧ m.get "type" = .str kind ∧ t ≤ time ∧ id ∉ ids ∧
        Coherent kind t (id::ids) ms names' times' := by
  constructor
  · intro h
    obtain ⟨id,names',rfl,hid,hnames⟩ := List.map_eq_cons_iff.mp h.named.symm
    obtain ⟨t,times',rfl,ht,htimes⟩ := List.map_eq_cons_iff.mp h.timed.symm
    have hordered := List.pairwise_cons.mp h.ordered
    have hnodup := List.nodup_cons.mp h.nodup
    refine ⟨id,t,names',times',rfl,rfl,hid.symm,ht.symm,h.typed m (by simp),hordered.1 t (by simp),
      h.fresh id (by simp),⟨hnames.symm,htimes.symm,?_,hordered.2,hnodup.2,?_⟩⟩
    · exact fun x hx => h.typed x (List.mem_cons_of_mem _ hx)
    · intro n hn hmem
      rcases List.mem_cons.mp hmem with rfl | hmem
      · exact hnodup.1 hn
      · exact h.fresh n (List.mem_cons_of_mem _ hn) hmem
  · rintro ⟨id,t,names',times',rfl,rfl,hid,ht,htype,hle,hnew,h⟩
    refine ⟨by simp [hid,h.named],by simp [ht,h.timed],?_,?_,?_,?_⟩
    · exact List.forall_mem_cons.mpr ⟨htype,h.typed⟩
    · refine List.pairwise_cons.mpr ⟨fun u hu => ?_,h.ordered⟩
      rcases List.mem_cons.mp hu with rfl | hu
      · exact hle
      · exact le_trans ((List.pairwise_cons.mp h.ordered).1 u hu) hle
    · refine List.nodup_cons.mpr ⟨fun hmem => ?_,h.nodup⟩
      exact h.fresh id hmem List.mem_cons_self
    · intro n hn
      rcases List.mem_cons.mp hn with rfl | hn
      · exact hnew
      · exact fun hmem => h.fresh n hn (List.mem_cons_of_mem _ hmem)

theorem coherent_append {kind : String} {time : ℕ} {ids : List String} {ms rest : List Json}
    {names : List String} {times : List ℕ} : Coherent kind time ids (ms ++ rest) names times ↔
      ∃ names₁ names₂ times₁ times₂, names = names₁ ++ names₂ ∧ times = times₁ ++ times₂ ∧
        Coherent kind time ids ms names₁ times₁ ∧
        Coherent kind (times₁.getLast?.getD time) (names₁.reverse ++ ids) rest names₂ times₂ := by
  induction ms generalizing time ids names times with
  | nil =>
    constructor
    · exact fun h => ⟨[],names,[],times,rfl,rfl,coherent_nil _ _ _,h⟩
    · rintro ⟨names₁,names₂,times₁,times₂,rfl,rfl,hnil,h⟩
      obtain rfl := List.map_eq_nil_iff.mp hnil.named.symm
      obtain rfl := List.map_eq_nil_iff.mp hnil.timed.symm
      exact h
  | cons m ms ih =>
    rw [List.cons_append,coherent_cons]
    constructor
    · rintro ⟨id,t,names',times',rfl,rfl,hid,ht,htype,hle,hnew,h⟩
      obtain ⟨names₁,names₂,times₁,times₂,rfl,rfl,h₁,h₂⟩ := ih.mp h
      refine ⟨id::names₁,names₂,t::times₁,times₂,rfl,rfl,
        coherent_cons.mpr ⟨id,t,names₁,times₁,rfl,rfl,hid,ht,htype,hle,hnew,h₁⟩,?_⟩
      simpa [List.getLast?_cons] using h₂
    · rintro ⟨_,names₂,_,times₂,rfl,rfl,hcoherent,h₂⟩
      obtain ⟨id,t,names₁,times₁,rfl,rfl,hid,ht,htype,hle,hnew,h₁⟩ := coherent_cons.mp hcoherent
      refine ⟨id,t,names₁ ++ names₂,times₁ ++ times₂,rfl,rfl,hid,ht,htype,hle,hnew,
        ih.mpr ⟨names₁,names₂,times₁,times₂,rfl,rfl,h₁,?_⟩⟩
      simpa [List.getLast?_cons] using h₂

section
variable {τ : Type} {kind : String} {select : τ → Json → Except String (τ × Bool)} {s s' : Scan τ}
  {m : Json} {ms : List Json}

theorem scanMessage_ok {found : Bool} : scanMessage kind select s m = .ok (s',found) ↔
    ∃ id time seen, messageId m = some id ∧ messageTime m = some time ∧ m.get "type" = .str kind ∧
      time ≤ s.time ∧ id ∉ s.ids ∧ select s.seen m = .ok (seen,found) ∧
      s' = ⟨time,id::s.ids,seen⟩ := by
  unfold scanMessage messageTime
  cases messageId m with
  | none => simp
  | some id =>
    cases ((m.get "time").get "created").asU64 with
    | none => simp
    | some time =>
      dsimp only
      by_cases hbad : m.get "type" ≠ .str kind ∨ s.time < time ∨ id ∈ s.ids
      · rw [if_pos hbad]
        constructor
        · nofun
        · rintro ⟨_,_,_,hid,htime,htype,hle,hnew,-,-⟩
          obtain rfl := Option.some.inj hid
          obtain rfl := Option.some.inj htime
          rcases hbad with h | h | h
          · exact absurd htype h
          · omega
          · exact absurd h hnew
      · rw [if_neg hbad]
        simp only [ne_eq,not_or,not_not,not_lt] at hbad
        obtain ⟨htype,hle,hnew⟩ := hbad
        constructor
        · intro h
          obtain ⟨⟨seen,found'⟩,hseen,h⟩ := bind_ok h
          obtain ⟨rfl,rfl⟩ := Prod.mk.inj (Except.ok.inj h)
          exact ⟨id,time,seen,rfl,rfl,htype,hle,hnew,hseen,rfl⟩
        · rintro ⟨_,_,seen,hid,htime,-,-,-,hseen,rfl⟩
          obtain rfl := Option.some.inj hid
          obtain rfl := Option.some.inj htime
          rw [hseen]
          rfl

/-- What the selector keeps of messages that it passes over. -/
def passed (select : τ → Json → Except String (τ × Bool)) (seen : τ) : List Json → Option τ
  | [] => some seen
  | m::ms =>
    match select seen m with
    | .ok (seen,false) => passed select seen ms
    | _ => none

/-- Coherent messages, none of which the selector finds. -/
structure Scanned (kind : String) (select : τ → Json → Except String (τ × Bool)) (s : Scan τ)
    (ms : List Json) (s' : Scan τ) : Prop where
  scan : ∃ names times seen, Coherent kind s.time s.ids ms names times ∧
    passed select s.seen ms = some seen ∧
    s' = ⟨times.getLast?.getD s.time,names.reverse ++ s.ids,seen⟩

theorem scanned_nil : Scanned kind select s [] s' ↔ s' = s := by
  constructor
  · rintro ⟨names,times,seen,hcoherent,hseen,rfl⟩
    obtain rfl : names = [] := by simpa using hcoherent.named.symm
    obtain rfl : times = [] := by simpa using hcoherent.timed.symm
    obtain rfl := Option.some.inj hseen
    rfl
  · rintro rfl
    exact ⟨[],[],s'.seen,coherent_nil _ _ _,rfl,rfl⟩

theorem scanned_cons : Scanned kind select s (m::ms) s' ↔
    ∃ s₁, scanMessage kind select s m = .ok (s₁,false) ∧ Scanned kind select s₁ ms s' := by
  have hlast : ∀ (t : ℕ) (ts : List ℕ), (t::ts).getLast?.getD s.time = ts.getLast?.getD t := by
    intro t ts
    rw [List.getLast?_cons]
    rfl
  constructor
  · rintro ⟨names,times,seen,hcoherent,hseen,rfl⟩
    obtain ⟨id,t,names',times',rfl,rfl,hid,ht,htype,hle,hnew,hrest⟩ := coherent_cons.mp hcoherent
    simp only [passed] at hseen
    split at hseen
    · rename_i seen₁ hselect
      refine ⟨⟨t,id::s.ids,seen₁⟩,scanMessage_ok.mpr ⟨id,t,seen₁,hid,ht,htype,hle,hnew,hselect,rfl⟩,
        ⟨names',times',seen,hrest,hseen,?_⟩⟩
      rw [hlast]
      simp
    · cases hseen
  · rintro ⟨s₁,hscan,⟨names,times,seen,hcoherent,hseen,rfl⟩⟩
    obtain ⟨id,t,seen₁,hid,ht,htype,hle,hnew,hselect,rfl⟩ := scanMessage_ok.mp hscan
    refine ⟨id::names,t::times,seen,coherent_cons.mpr
      ⟨id,t,names,times,rfl,rfl,hid,ht,htype,hle,hnew,hcoherent⟩,?_,?_⟩
    · simp only [passed,hselect]
      exact hseen
    · rw [hlast]
      simp

theorem scanned_append {before : List Json} : Scanned kind select s (before ++ ms) s' ↔
    ∃ s₁, Scanned kind select s before s₁ ∧ Scanned kind select s₁ ms s' := by
  induction before generalizing s with
  | nil => simp [scanned_nil]
  | cons x before ih =>
    simp only [List.cons_append,scanned_cons,ih]
    constructor
    · rintro ⟨s₁,hscan,s₂,h₁,h₂⟩
      exact ⟨s₂,⟨s₁,hscan,h₁⟩,h₂⟩
    · rintro ⟨s₂,⟨s₁,hscan,h₁⟩,h₂⟩
      exact ⟨s₁,hscan,s₂,h₁,h₂⟩

/-- The first message that the selector finds, behind ones that it passed over. -/
structure Hit (kind : String) (select : τ → Json → Except String (τ × Bool)) (s : Scan τ)
    (ms : List Json) (m : Json) (s' : Scan τ) : Prop where
  split : ∃ before after s₁, ms = before ++ m::after ∧ Scanned kind select s before s₁ ∧
    scanMessage kind select s₁ m = .ok (s',true)

theorem scanPage_none : scanPage kind select s ms = .ok (s',none) ↔
    Scanned kind select s ms s' := by
  induction ms generalizing s with
  | nil =>
    rw [scanned_nil]
    simp [scanPage,eq_comm]
  | cons x ms ih =>
    rw [scanned_cons]
    constructor
    · intro h
      obtain ⟨⟨s₁,found⟩,hscan,h⟩ := bind_ok h
      cases found with
      | true => cases h
      | false => exact ⟨s₁,hscan,ih.mp h⟩
    · rintro ⟨s₁,hscan,h⟩
      have hrest := ih.mpr h
      simp only [scanPage,hscan]
      exact hrest

theorem scanPage_some : scanPage kind select s ms = .ok (s',some m) ↔
    Hit kind select s ms m s' := by
  induction ms generalizing s with
  | nil =>
    constructor
    · nofun
    · rintro ⟨before,after,s₁,hsplit,-,-⟩
      simp at hsplit
  | cons x ms ih =>
    constructor
    · intro h
      obtain ⟨⟨s₁,found⟩,hscan,h⟩ := bind_ok h
      cases found with
      | true =>
        obtain ⟨rfl,hm⟩ := Prod.mk.inj (Except.ok.inj h)
        obtain rfl := Option.some.inj hm
        exact ⟨[],ms,s,rfl,scanned_nil.mpr rfl,hscan⟩
      | false =>
        obtain ⟨before,after,s₂,rfl,hbefore,hm⟩ := (ih.mp h).split
        exact ⟨x::before,after,s₂,rfl,scanned_cons.mpr ⟨s₁,hscan,hbefore⟩,hm⟩
    · rintro ⟨before,after,s₁,hsplit,hbefore,hm⟩
      cases before with
      | nil =>
        obtain ⟨rfl,rfl⟩ := List.cons.inj hsplit
        obtain rfl := scanned_nil.mp hbefore
        simp only [scanPage,hm]
        rfl
      | cons y before =>
        obtain ⟨rfl,rfl⟩ := List.cons.inj hsplit
        obtain ⟨s₂,hscan,hbefore⟩ := scanned_cons.mp hbefore
        have hrest := ih.mpr ⟨before,after,s₁,rfl,hbefore,hm⟩
        simp only [scanPage,hscan]
        exact hrest

end

/-! ## Pages -/

/-- A page of the history, as the owner's host answered it. -/
structure Turned (p : Packet) (kind : String) (cursor : Option String)
    (e : Σ q, Except String (Call.Answer q)) (page : Json) (ms : List Json) : Prop where
  request : ∃ reply, e = ⟨.api p.ownerHost .get (sessionPath p (pageSuffix kind cursor)) none,
    .ok reply⟩ ∧ reply.checked = .ok page
  messages : pageMessages page = .ok ms

/-- Pages that follow one another by their cursors: the messages of all but the last, the last one
and its messages, and the cursors that led there. -/
inductive Turns (p : Packet) (kind : String) : Option String → List String → Log → List Json →
    Json → List Json → List String → Prop
  | last {cursor : Option String} {cursors : List String} {e : Σ q, Except String (Call.Answer q)}
      {page : Json} {ms : List Json} (h : Turned p kind cursor e page ms) :
      Turns p kind cursor cursors [e] [] page ms cursors
  | more {cursor : Option String} {cursors cursors' : List String}
      {e : Σ q, Except String (Call.Answer q)} {page page' : Json} {ms ms' earlier : List Json}
      {next : String} {es : Log} (h : Turned p kind cursor e page ms)
      (hnext : nextCursor page ms cursors = .ok (some next))
      (hrest : Turns p kind (some next) (next::cursors) es earlier page' ms' cursors') :
      Turns p kind cursor cursors (e::es) (ms ++ earlier) page' ms' cursors'

/-- What pages of a history prove: the first message found in them is on the last one, or else
none is in them and the last one ends the history. -/
structure Searched {τ : Type} (p : Packet) (kind : String)
    (select : τ → Json → Except String (τ × Bool)) (cursor : Option String) (cursors : List String)
    (s : Scan τ) (es : Log) (s' : Scan τ) (found : Option Json) : Prop where
  pages : ∃ earlier page ms cursors', Turns p kind cursor cursors es earlier page ms cursors' ∧
    match found with
    | none => nextCursor page ms cursors' = .ok none ∧ Scanned kind select s (earlier ++ ms) s'
    | some m => ∃ s₁, Scanned kind select s earlier s₁ ∧ Hit kind select s₁ ms m s'

theorem ran_request {p : Packet} {suffix : String} {es : Log} {v : Json} :
    Ran (request p suffix : Reading Json) es v ↔ ∃ reply,
      es = [⟨.api p.ownerHost .get (sessionPath p suffix) none,.ok reply⟩] ∧
        reply.checked = .ok v := by
  constructor
  · intro h
    obtain ⟨reply,es₁,es₂,rfl,h₁,h₂⟩ := ran_bind h
    obtain rfl := ran_ask h₁
    obtain ⟨rfl,hv⟩ := ran_lift h₂
    exact ⟨reply,rfl,hv⟩
  · rintro ⟨reply,rfl,hv⟩
    exact ran_ask_then (ran_lift_iff.mpr ⟨rfl,hv⟩)

theorem ran_request_seq {α : Type} {p : Packet} {suffix : String} {reply : Reply} {v : Json}
    {f : Json → Reading α} {es : Log} {a : α} (hreply : reply.checked = .ok v)
    (hf : Ran (f v) es a) : Ran (request p suffix >>= f)
      (⟨.api p.ownerHost .get (sessionPath p suffix) none,.ok reply⟩::es) a :=
  ran_seq (ran_request.mpr ⟨reply,rfl,hreply⟩) hf

section
variable {τ : Type} {p : Packet} {kind : String} {select : τ → Json → Except String (τ × Bool)}
  {cursor : Option String} {cursors : List String} {s s' : Scan τ} {es : Log}
  {found : Option Json} {left : ℕ}

/-- One page of a search, and what is done with it. -/
theorem ran_page : Ran (searchPages p kind select (left+1) cursor cursors s) es (s',found) ↔
    ∃ e es' page ms s₁, es = e::es' ∧ Turned p kind cursor e page ms ∧
      ((∃ m, scanPage kind select s ms = .ok (s₁,some m) ∧ es' = [] ∧ s' = s₁ ∧ found = some m) ∨
        (scanPage kind select s ms = .ok (s₁,none) ∧
          ((nextCursor page ms cursors = .ok none ∧ es' = [] ∧ s' = s₁ ∧ found = none) ∨
            ∃ next, nextCursor page ms cursors = .ok (some next) ∧
              Ran (searchPages p kind select left (some next) (next::cursors) s₁) es'
                (s',found)))) := by
  constructor
  · intro h
    obtain ⟨page,es₁,es₂,rfl,h₁,h₂⟩ := ran_bind h
    obtain ⟨reply,rfl,hreply⟩ := ran_request.mp h₁
    obtain ⟨ms,hms,h₂⟩ := ran_lift_then h₂
    obtain ⟨⟨s₁,hit⟩,hscan,h₂⟩ := ran_lift_then h₂
    refine ⟨_,es₂,page,ms,s₁,rfl,⟨⟨reply,rfl,hreply⟩,hms⟩,?_⟩
    cases hit with
    | some m =>
      obtain ⟨rfl,heq⟩ := ran_pure h₂
      obtain ⟨rfl,rfl⟩ := Prod.mk.inj heq
      exact .inl ⟨m,hscan,rfl,rfl,rfl⟩
    | none =>
      refine .inr ⟨hscan,?_⟩
      obtain ⟨next,hnext,h₂⟩ := ran_lift_then h₂
      cases next with
      | none =>
        obtain ⟨rfl,heq⟩ := ran_pure h₂
        obtain ⟨rfl,rfl⟩ := Prod.mk.inj heq
        exact .inl ⟨hnext,rfl,rfl,rfl⟩
      | some next => exact .inr ⟨next,hnext,h₂⟩
  · rintro ⟨e,es',page,ms,s₁,rfl,⟨⟨reply,rfl,hreply⟩,hms⟩,h⟩
    refine ran_request_seq hreply ?_
    refine ran_lift_seq hms ?_
    rcases h with ⟨m,hscan,rfl,rfl,rfl⟩ | ⟨hscan,h⟩
    · exact ran_lift_seq hscan (ran_pure_iff.mpr ⟨rfl,rfl⟩)
    · refine ran_lift_seq hscan ?_
      rcases h with ⟨hnext,rfl,rfl,rfl⟩ | ⟨next,hnext,h⟩
      · exact ran_lift_seq hnext (ran_pure_iff.mpr ⟨rfl,rfl⟩)
      · exact ran_lift_seq hnext h

theorem searched_last {e : Σ q, Except String (Call.Answer q)} {page : Json} {ms : List Json}
    (h : Turned p kind cursor e page ms) (hnext : nextCursor page ms cursors = .ok none)
    (hscan : Scanned kind select s ms s') : Searched p kind select cursor cursors s [e] s' none :=
  ⟨[],page,ms,cursors,.last h,hnext,hscan⟩

/-- A search returns exactly what so many pages prove. -/
theorem searchPages_iff : Ran (searchPages p kind select left cursor cursors s) es (s',found) ↔
    es.length ≤ left ∧ Searched p kind select cursor cursors s es s' found := by
  induction left generalizing cursor cursors s es with
  | zero =>
    constructor
    · exact fun h => (ran_throw h).elim
    · rintro ⟨hlength,⟨earlier,page,ms,cursors',hturns,-⟩⟩
      cases hturns with
      | last h => simp at hlength
      | more h hnext hrest => simp at hlength
  | succ left ih =>
    rw [ran_page]
    constructor
    · rintro ⟨e,es',page,ms,s₁,rfl,hpage,h⟩
      rcases h with ⟨m,hscan,rfl,rfl,rfl⟩ | ⟨hscan,h⟩
      · exact ⟨by simp,⟨[],page,ms,cursors,.last hpage,s,scanned_nil.mpr rfl,
          scanPage_some.mp hscan⟩⟩
      · have hscanned := scanPage_none.mp hscan
        rcases h with ⟨hnext,rfl,rfl,rfl⟩ | ⟨next,hnext,h⟩
        · exact ⟨by simp,searched_last hpage hnext hscanned⟩
        · obtain ⟨hlength,⟨earlier,page',ms',cursors',hturns,h⟩⟩ := ih.mp h
          refine ⟨by simpa using hlength,
            ⟨ms ++ earlier,page',ms',cursors',.more hpage hnext hturns,?_⟩⟩
          cases found with
          | none =>
            rw [List.append_assoc]
            exact ⟨h.1,scanned_append.mpr ⟨s₁,hscanned,h.2⟩⟩
          | some m =>
            obtain ⟨s₂,hbefore,hhit⟩ := h
            exact ⟨s₂,scanned_append.mpr ⟨s₁,hscanned,hbefore⟩,hhit⟩
    · rintro ⟨hlength,⟨earlier,page,ms,cursors',hturns,h⟩⟩
      cases hturns with
      | last hpage =>
        cases found with
        | none =>
          obtain ⟨hend,hscan⟩ := h
          exact ⟨_,[],page,ms,s',rfl,hpage,.inr ⟨scanPage_none.mpr hscan,.inl ⟨hend,rfl,rfl,rfl⟩⟩⟩
        | some m =>
          obtain ⟨s₁,hnil,hhit⟩ := h
          obtain rfl := scanned_nil.mp hnil
          exact ⟨_,[],page,ms,s',rfl,hpage,.inl ⟨m,scanPage_some.mpr hhit,rfl,rfl,rfl⟩⟩
      | @more _ _ _ e page₁ _ ms₁ _ earlier next es' hpage hnext hrest =>
        have hsearched : ∃ s₁, Scanned kind select s ms₁ s₁ ∧
            Searched p kind select (some next) (next::cursors) s₁ es' s' found := by
          cases found with
          | none =>
            obtain ⟨hend,hscan⟩ := h
            rw [List.append_assoc] at hscan
            obtain ⟨s₁,h₁,h₂⟩ := scanned_append.mp hscan
            exact ⟨s₁,h₁,⟨_,page,ms,cursors',hrest,hend,h₂⟩⟩
          | some m =>
            obtain ⟨s₂,hscan,hhit⟩ := h
            obtain ⟨s₁,h₁,h₂⟩ := scanned_append.mp hscan
            exact ⟨s₁,h₁,⟨_,page,ms,cursors',hrest,s₂,h₂,hhit⟩⟩
        obtain ⟨s₁,hscan,hsearched⟩ := hsearched
        exact ⟨e,es',page₁,ms₁,s₁,rfl,hpage,.inr ⟨scanPage_none.mpr hscan,
          .inr ⟨next,hnext,ih.mpr ⟨by simpa using hlength,hsearched⟩⟩⟩⟩

end

/-! ## The two histories of an owner -/

section
variable {s s' : Scan Unit} {m : Json} {ms : List Json}

theorem usesContext_ok {b : Bool} : usesContext () m = .ok ((),b) ↔
    ∃ n, physicalTokens m = .ok n ∧ b = decide (0 < n) := by
  unfold usesContext
  constructor
  · intro h
    obtain ⟨n,hn,h⟩ := bind_ok h
    exact ⟨n,hn,(Prod.mk.inj (Except.ok.inj h)).2.symm⟩
  · rintro ⟨n,hn,rfl⟩
    rw [hn]
    rfl

theorem passed_usesContext : passed usesContext () ms = some () ↔
    ∀ m ∈ ms, physicalTokens m = .ok 0 := by
  induction ms with
  | nil => simp [passed]
  | cons m ms ih =>
    have hzero : usesContext () m = .ok ((),false) ↔ physicalTokens m = .ok 0 := by
      rw [usesContext_ok]
      constructor
      · rintro ⟨n,hn,hfalse⟩
        obtain rfl : n = 0 := by simpa using hfalse.symm
        exact hn
      · exact fun h => ⟨0,h,rfl⟩
    rw [List.forall_mem_cons,← ih,← hzero]
    simp only [passed]
    split
    · rename_i seen hselect
      simp [hselect]
    · rename_i hno
      constructor
      · nofun
      · exact fun h => absurd h.1 (hno ())

theorem passed_collect {seen seen' : List Json} : passed collectCompaction seen ms = some seen' ↔
    seen' = seen ++ ms ∧ ∀ m ∈ ms, ∃ status, compactionStatus m = .ok status := by
  induction ms generalizing seen with
  | nil => simp [passed,eq_comm]
  | cons m ms ih =>
    simp only [passed,collectCompaction]
    cases hstatus : compactionStatus m with
    | error e =>
      constructor
      · nofun
      · rintro ⟨-,h⟩
        obtain ⟨status,hm⟩ := h m (by simp)
        rw [hstatus] at hm
        cases hm
    | ok status =>
      have hrest := @ih (seen ++ [m])
      rw [List.append_assoc,List.singleton_append] at hrest
      rw [List.forall_mem_cons]
      refine Iff.trans hrest (and_congr_right fun _ => ?_)
      exact ⟨fun h => ⟨⟨status,hstatus⟩,h⟩,And.right⟩

/-- The newest message with physical usage, behind messages without any. -/
structure NewestUse (p : Packet) (es : Log) (m : Json) (ids : List String) : Prop where
  pages : ∃ earlier page ms cursors before after names times n,
    Turns p "assistant" none [] es earlier page ms cursors ∧ ms = before ++ m::after ∧
    Coherent "assistant" (2^64-1) [] (earlier ++ before ++ [m]) names times ∧
    (∀ x ∈ earlier ++ before, physicalTokens x = .ok 0) ∧ physicalTokens m = .ok n ∧ 0 < n ∧
    ids = names.reverse

/-- A whole history of compactions, none of them under one of these identities. -/
structure WholeHistory (p : Packet) (ids : List String) (es : Log) (history : List Json) :
    Prop where
  pages : ∃ earlier page ms cursors names times,
    Turns p "compaction" none [] es earlier page ms cursors ∧
    nextCursor page ms cursors = .ok none ∧ history = earlier ++ ms ∧
    Coherent "compaction" (2^64-1) ids history names times ∧
    ∀ x ∈ history, ∃ status, compactionStatus x = .ok status

theorem newestUse_iff {p : Packet} {es : Log} {ids : List String} :
    Ran (physicalContext p) es (m,ids) ↔ es.length ≤ 4 ∧ NewestUse p es m ids := by
  constructor
  · intro h
    obtain ⟨⟨s',found⟩,es₁,es₂,rfl,h₁,h₂⟩ := ran_bind h
    obtain ⟨hlength,⟨earlier,page,ms,cursors,hturns,hfound⟩⟩ := searchPages_iff.mp h₁
    cases found with
    | none => exact (ran_throw h₂).elim
    | some m' =>
      obtain ⟨rfl,heq⟩ := ran_pure h₂
      obtain ⟨rfl,rfl⟩ := Prod.mk.inj heq
      rw [List.append_nil]
      obtain ⟨s₁,hearlier,⟨before,after,s₂,rfl,hbefore,hm⟩⟩ := hfound
      have hscanned := scanned_append.mpr ⟨s₁,hearlier,hbefore⟩
      obtain ⟨names,times,seen,hcoherent,hseen,rfl⟩ := hscanned
      obtain ⟨id,t,seen',hid,ht,htype,hle,hnew,hselect,rfl⟩ := scanMessage_ok.mp hm
      obtain ⟨n,hn,hpos⟩ := usesContext_ok.mp hselect
      refine ⟨hlength,⟨earlier,page,_,cursors,before,after,names ++ [id],times ++ [t],n,hturns,rfl,
        ?_,passed_usesContext.mp hseen,hn,by simpa using hpos.symm,by simp⟩⟩
      refine coherent_append.mpr ⟨names,[id],times,[t],rfl,rfl,hcoherent,?_⟩
      exact coherent_cons.mpr ⟨id,t,[],[],rfl,rfl,hid,ht,htype,hle,hnew,coherent_nil _ _ _⟩
  · rintro ⟨hlength,⟨earlier,page,_,cursors,before,after,names,times,n,hturns,rfl,hcoherent,hzero,
      hn,hpos,rfl⟩⟩
    obtain ⟨names₁,names₂,times₁,times₂,rfl,rfl,hbefore,hlast⟩ := coherent_append.mp hcoherent
    obtain ⟨id,t,_,_,rfl,rfl,hid,ht,htype,hle,hnew,hnil⟩ := coherent_cons.mp hlast
    obtain rfl := List.map_eq_nil_iff.mp hnil.named.symm
    have hscanned : Scanned "assistant" usesContext ⟨2^64-1,[],()⟩ (earlier ++ before)
        ⟨times₁.getLast?.getD (2^64-1),names₁.reverse ++ [],()⟩ :=
      ⟨names₁,times₁,(),hbefore,passed_usesContext.mpr hzero,rfl⟩
    obtain ⟨s₁,hearlier,hbefore⟩ := scanned_append.mp hscanned
    have hselect : usesContext () m = .ok ((),true) :=
      usesContext_ok.mpr ⟨n,hn,by simpa using hpos⟩
    have hm := scanMessage_ok (s := ⟨times₁.getLast?.getD (2^64-1),names₁.reverse ++ [],()⟩).mpr
      ⟨id,t,(),hid,ht,htype,hle,hnew,hselect,rfl⟩
    have hsearch : Ran (contextMessage p "assistant" usesContext [] ()) es
        (⟨t,id::(names₁.reverse ++ []),()⟩,some m) :=
      searchPages_iff.mpr ⟨hlength,⟨earlier,page,_,cursors,hturns,s₁,hearlier,
        ⟨before,after,_,rfl,hbefore,hm⟩⟩⟩
    have hrun : Ran (physicalContext p) (es ++ []) (m,id::(names₁.reverse ++ [])) :=
      ran_seq hsearch (ran_pure_iff.mpr ⟨rfl,rfl⟩)
    simpa using hrun

theorem wholeHistory_iff {p : Packet} {es : Log} {ids : List String} {history : List Json} :
    Ran (compactionHistory p ids) es history ↔ es.length ≤ 4 ∧ WholeHistory p ids es history := by
  constructor
  · intro h
    obtain ⟨⟨s',found⟩,es₁,es₂,rfl,h₁,h₂⟩ := ran_bind h
    obtain ⟨rfl,rfl⟩ := ran_pure h₂
    rw [List.append_nil]
    obtain ⟨hlength,⟨earlier,page,ms,cursors,hturns,hfound⟩⟩ := searchPages_iff.mp h₁
    cases found with
    | none =>
      obtain ⟨hend,⟨names,times,seen,hcoherent,hseen,rfl⟩⟩ := hfound
      obtain ⟨rfl,hstatus⟩ := passed_collect.mp hseen
      exact ⟨hlength,⟨earlier,page,ms,cursors,names,times,hturns,hend,rfl,hcoherent,hstatus⟩⟩
    | some m =>
      obtain ⟨s₁,-,⟨before,after,s₂,-,-,hm⟩⟩ := hfound
      obtain ⟨id,t,seen,_,_,_,_,_,hselect,_⟩ := scanMessage_ok.mp hm
      obtain ⟨status,_,heq⟩ := bind_ok hselect
      cases heq
  · rintro ⟨hlength,⟨earlier,page,ms,cursors,names,times,hturns,hend,rfl,hcoherent,hstatus⟩⟩
    have hscanned : Scanned "compaction" collectCompaction ⟨2^64-1,ids,[]⟩ (earlier ++ ms)
        ⟨times.getLast?.getD (2^64-1),names.reverse ++ ids,earlier ++ ms⟩ :=
      ⟨names,times,_,hcoherent,passed_collect.mpr ⟨rfl,hstatus⟩,rfl⟩
    have hsearch : Ran (contextMessage p "compaction" collectCompaction ids []) es
        (⟨times.getLast?.getD (2^64-1),names.reverse ++ ids,earlier ++ ms⟩,none) :=
      searchPages_iff.mpr ⟨hlength,⟨earlier,page,ms,cursors,hturns,hend,hscanned⟩⟩
    have hrun : Ran (compactionHistory p ids) (es ++ []) (earlier ++ ms) :=
      ran_seq hsearch (ran_pure_iff.mpr ⟨rfl,rfl⟩)
    simpa using hrun

end

/-- Whatever a host answers: a search of at most four pages returns the newest message with
physical usage exactly if its pages show that message behind ones without usage, and a history of
compactions exactly if its pages are all of it. -/
theorem histories_exact (p : Packet) (es : Log) :
    (∀ m ids, Ran (physicalContext p) es (m,ids) ↔ es.length ≤ 4 ∧ NewestUse p es m ids) ∧
    ∀ ids history, Ran (compactionHistory p ids) es history ↔
      es.length ≤ 4 ∧ WholeHistory p ids es history :=
  ⟨fun _ _ => newestUse_iff,fun _ _ => wholeHistory_iff⟩

/-! ## A host that serves a history -/

def pageCall (p : Packet) (kind : String) (cursor : Option String) : Call :=
  .api p.ownerHost .get (sessionPath p (pageSuffix kind cursor)) none

def pageReply (ms : List Json) (next : Json) : Reply :=
  ⟨200,object [("data",.arr ms),("cursor",object [("next",next)])]⟩

/-- The host serves these pages, one after the other, under cursors of its own. -/
inductive Serves (answer : (q : Call) → Except String q.Answer) (p : Packet) (kind : String) :
    Option String → List String → List (List Json) → Prop
  | last {cursor : Option String} {cursors : List String} {ms : List Json} (hsize : ms.length ≤ 64)
      (h : answer (pageCall p kind cursor) = .ok (pageReply ms .null)) :
      Serves answer p kind cursor cursors [ms]
  | more {cursor : Option String} {cursors : List String} {ms : List Json}
      {pages : List (List Json)} {next : String} (hsize : ms.length ≤ 64) (hms : ms ≠ [])
      (hnext : next ≠ "") (hshort : next.utf8ByteSize ≤ 4096) (hnew : next ∉ cursors)
      (h : answer (pageCall p kind cursor) = .ok (pageReply ms (.str next)))
      (hrest : Serves answer p kind (some next) (next::cursors) pages) :
      Serves answer p kind cursor cursors (ms::pages)

section
variable {τ : Type} {step : τ → Json → τ} {hit : Json → Bool}

/-- A scan over messages that passes over all of them. -/
def Scan.past (step : τ → Json → τ) (s : Scan τ) (ms : List Json) : Scan τ where
  time := (ms.filterMap messageTime).getLast?.getD s.time
  ids := (ms.filterMap messageId).reverse ++ s.ids
  seen := ms.foldl step s.seen

theorem Scan.past_append (s : Scan τ) (before ms : List Json) :
    s.past step (before ++ ms) = (s.past step before).past step ms := by
  simp only [Scan.past,List.filterMap_append,List.getLast?_append,List.reverse_append,
    List.append_assoc,List.foldl_append,Scan.mk.injEq,and_true]
  cases (ms.filterMap messageTime).getLast? <;> simp

/-- The messages up to the first one that is found. -/
def through (hit : Json → Bool) (ms : List Json) : List Json :=
  ms.takeWhile (fun m => !hit m) ++ (ms.find? hit).toList

theorem through_none {ms : List Json} (h : ms.find? hit = none) : through hit ms = ms := by
  have hno := List.find?_eq_none.mp h
  rw [through,h,Option.toList_none,List.append_nil,List.takeWhile_eq_self_iff.mpr]
  intro m hm
  simpa using hno m hm

theorem through_append_miss {ms rest : List Json} (h : ms.find? hit = none) :
    through hit (ms ++ rest) = ms ++ through hit rest := by
  have hno : ∀ m ∈ ms, (!hit m) = true := fun m hm => by simpa using List.find?_eq_none.mp h m hm
  rw [through,List.find?_append,h,Option.none_or,List.takeWhile_append_of_pos hno,List.append_assoc]
  rfl

theorem through_append_hit {m : Json} {ms rest : List Json} (h : ms.find? hit = some m) :
    through hit (ms ++ rest) = through hit ms := by
  have hno : ¬ ms.takeWhile (fun m => !hit m) = ms := by
    rw [List.takeWhile_eq_self_iff]
    intro hall
    have hm := hall m (List.mem_of_find?_eq_some h)
    simp [List.find?_some h] at hm
  rw [through,through,List.find?_append,h,Option.some_or,List.takeWhile_append,if_neg]
  intro hlength
  exact hno (List.IsPrefix.eq_of_length (List.takeWhile_prefix _) hlength)

theorem through_cons_hit {m : Json} {ms : List Json} (h : hit m = true) :
    through hit (m::ms) = [m] := by
  simp [through,h]

theorem through_cons_miss {m : Json} {ms : List Json} (h : hit m = false) :
    through hit (m::ms) = m::through hit ms := by
  simp [through,h]

variable {kind : String} {select : τ → Json → Except String (τ × Bool)}

/-- What the selector does with the messages of a history. -/
def Selects (select : τ → Json → Except String (τ × Bool)) (step : τ → Json → τ)
    (hit : Json → Bool) (ms : List Json) : Prop :=
  ∀ m ∈ ms, ∀ seen, select seen m = .ok (step seen m,hit m)

theorem scanMessage_past {s : Scan τ} {m : Json} {ms : List Json} {names : List String}
    {times : List ℕ} (h : Coherent kind s.time s.ids (m::ms) names times)
    (hselect : Selects select step hit (m::ms)) :
    scanMessage kind select s m = .ok (s.past step [m],hit m) ∧
      ∃ names times, Coherent kind (s.past step [m]).time (s.past step [m]).ids ms names times := by
  obtain ⟨id,t,names',times',rfl,rfl,hid,ht,htype,hle,hnew,hrest⟩ := coherent_cons.mp h
  have hpast : s.past step [m] = ⟨t,id::s.ids,step s.seen m⟩ := by
    simp [Scan.past,hid,ht]
  rw [hpast]
  exact ⟨scanMessage_ok.mpr ⟨id,t,_,hid,ht,htype,hle,hnew,hselect m (by simp) _,rfl⟩,
    names',times',hrest⟩

theorem scanPage_past {s : Scan τ} {ms rest : List Json} {names : List String} {times : List ℕ}
    (h : Coherent kind s.time s.ids (ms ++ rest) names times)
    (hselect : Selects select step hit (ms ++ rest)) :
    scanPage kind select s ms = .ok (s.past step (through hit ms),ms.find? hit) ∧
      ∃ names times, Coherent kind (s.past step ms).time (s.past step ms).ids rest names times := by
  induction ms generalizing s names times with
  | nil => exact ⟨rfl,names,times,h⟩
  | cons m ms ih =>
    obtain ⟨hscan,names',times',hrest⟩ := scanMessage_past h hselect
    obtain ⟨hpage,hcoherent⟩ := ih hrest fun x hx => hselect x (List.mem_cons_of_mem _ hx)
    rw [show m::ms = [m] ++ ms from rfl,Scan.past_append]
    refine ⟨?_,hcoherent⟩
    simp only [List.singleton_append,scanPage,hscan]
    cases hm : hit m with
    | true =>
      rw [through_cons_hit hm,List.find?_cons_of_pos hm]
      rfl
    | false =>
      rw [through_cons_miss hm,List.find?_cons_of_neg (by simp [hm]),show m::through hit ms =
        [m] ++ through hit ms from rfl,Scan.past_append]
      exact hpage

variable {answer : (q : Call) → Except String q.Answer} {p : Packet}

theorem pageReply_data (ms : List Json) (next : Json) :
    (pageReply ms next).data.get "data" = .arr ms ∧
      ((pageReply ms next).data.get "cursor").get? "next" = some next ∧
      (pageReply ms next).data.isArray = false := by
  have hcursor : (pageReply ms next).data.get "cursor" = object [("next",next)] :=
    object_get (by simp) (by simp)
  refine ⟨object_get (by simp) (by simp),?_,rfl⟩
  rw [hcursor]
  exact lookup_object (by simp) (by simp)

section
variable {cursor : Option String} {cursors : List String} {ms : List Json} {next : Json} {left : ℕ}
  {s s₁ : Scan τ}

theorem pageMessages_reply (hsize : ms.length ≤ 64) :
    pageMessages (pageReply ms next).data = .ok ms := by
  have hnone : (pageReply ms next).data.asArray = none := rfl
  have hsome : (some ms).filter (·.length ≤ 64) = some ms :=
    Option.filter_eq_some_iff.mpr ⟨rfl,by simpa using hsize⟩
  rw [pageMessages,hnone,(pageReply_data ms next).1]
  simp only [Json.asArray,Option.orElse_eq_orElse,Option.orElse_none,hsome]

theorem result_read (h : answer (pageCall p kind cursor) = .ok (pageReply ms next)) :
    result answer (request p (pageSuffix kind cursor) : Reading Json) () =
      (.ok (pageReply ms next).data,()) := result_ask_then answer h

theorem result_found {m : Json} (hsize : ms.length ≤ 64)
    (h : answer (pageCall p kind cursor) = .ok (pageReply ms next))
    (hscan : scanPage kind select s ms = .ok (s₁,some m)) :
    result answer (searchPages p kind select (left+1) cursor cursors s) () =
      (.ok (s₁,some m),()) :=
  (result_bind answer (result_read h)).trans
    ((result_lift_then answer (pageMessages_reply hsize)).trans (result_lift_then answer hscan))

theorem result_missed (hsize : ms.length ≤ 64)
    (h : answer (pageCall p kind cursor) = .ok (pageReply ms next))
    (hscan : scanPage kind select s ms = .ok (s₁,none)) :
    result answer (searchPages p kind select (left+1) cursor cursors s) () =
      result answer (do
        match ← Script.lift (nextCursor (pageReply ms next).data ms cursors) with
        | none => pure (s₁,none)
        | some next => searchPages p kind select left (some next) (next::cursors) s₁) () :=
  (result_bind answer (result_read h)).trans
    ((result_lift_then answer (pageMessages_reply hsize)).trans (result_lift_then answer hscan))

theorem nextCursor_last : nextCursor (pageReply ms .null).data ms cursors = .ok none := by
  obtain ⟨-,hnext,harray⟩ := pageReply_data ms .null
  unfold nextCursor
  rw [harray,hnext]
  rfl

theorem nextCursor_more {next : String} (hms : ms ≠ []) (hnext : next ≠ "")
    (hshort : next.utf8ByteSize ≤ 4096) (hnew : next ∉ cursors) :
    nextCursor (pageReply ms (.str next)).data ms cursors = .ok (some next) := by
  obtain ⟨-,hget,harray⟩ := pageReply_data ms (.str next)
  have hsome : (Json.asStr (.str next)).filter (fun v => v ≠ "" ∧ v.utf8ByteSize ≤ 4096) =
      some next :=
    Option.filter_eq_some_iff.mpr ⟨rfl,by simp [hnext,hshort]⟩
  unfold nextCursor
  rw [harray,hget]
  simp only [Bool.false_eq_true,if_false]
  rw [hsome]
  simp [hms,hnew]

end

theorem searchPages_served {cursor : Option String} {cursors : List String}
    {pages : List (List Json)} (hserves : Serves answer p kind cursor cursors pages) {s : Scan τ}
    {names : List String} {times : List ℕ}
    (h : Coherent kind s.time s.ids pages.flatten names times)
    (hselect : Selects select step hit pages.flatten) (left : ℕ) :
    result answer (searchPages p kind select left cursor cursors s) () =
      (if ((pages.take left).flatten.find? hit).isSome ∨ pages.length ≤ left then
        .ok (s.past step (through hit (pages.take left).flatten),
          (pages.take left).flatten.find? hit)
      else .error "physical context lookup exceeded its bounded history",()) := by
  induction left generalizing cursor cursors pages s names times with
  | zero =>
    have hne : pages ≠ [] := by cases hserves <;> simp
    rw [if_neg (by simpa using hne)]
    rfl
  | succ left ih =>
    cases hserves with
    | @last _ _ ms hsize hreply =>
      rw [List.flatten_singleton] at h hselect
      rw [← List.append_nil ms] at h hselect
      have hscan := (scanPage_past h hselect).1
      rw [List.take_of_length_le (by simp),List.flatten_singleton,if_pos (.inr (by simp))]
      cases hfound : ms.find? hit with
      | some m =>
        rw [hfound] at hscan
        exact result_found hsize hreply hscan
      | none =>
        rw [hfound] at hscan
        exact (result_missed hsize hreply hscan).trans (result_lift_then answer nextCursor_last)
    | @more _ _ ms pages next hsize hms hnext hshort hnew hreply hrest =>
      rw [List.flatten_cons] at h hselect
      obtain ⟨hscan,names',times',hcoherent⟩ := scanPage_past h hselect
      rw [List.take_succ_cons,List.flatten_cons,List.find?_append]
      cases hfound : ms.find? hit with
      | some m =>
        rw [hfound] at hscan
        rw [Option.some_or,if_pos (.inl rfl),through_append_hit hfound]
        exact result_found hsize hreply hscan
      | none =>
        rw [hfound,through_none hfound] at hscan
        rw [Option.none_or,through_append_miss hfound,Scan.past_append,List.length_cons]
        simp only [Nat.add_le_add_iff_right]
        refine (result_missed hsize hreply hscan).trans
          ((result_lift_then answer (nextCursor_more hms hnext hshort hnew)).trans ?_)
        exact ih hrest hcoherent fun m hm => hselect m (List.mem_append_right _ hm)

end

theorem Coherent.mono {kind : String} {time : ℕ} {ids ids' : List String} {ms : List Json}
    {names : List String} {times : List ℕ} (h : Coherent kind time ids ms names times)
    (hids : ids' ⊆ ids) : Coherent kind time ids' ms names times :=
  { h with fresh := fun n hn hmem => h.fresh n hn (hids hmem) }

theorem Coherent.names_eq {kind : String} {time : ℕ} {ids : List String} {ms : List Json}
    {names : List String} {times : List ℕ} (h : Coherent kind time ids ms names times) :
    ms.filterMap messageId = names := by
  have hmap : (ms.map messageId).filterMap id = ms.filterMap messageId := by
    rw [List.filterMap_map]
    rfl
  rw [← hmap,h.named,List.filterMap_map]
  exact List.filterMap_some

/-- A message with physical usage. -/
def used (m : Json) : Bool :=
  match physicalTokens m with
  | .ok n => 0 < n
  | .error _ => false

theorem selects_used {ms : List Json} (h : ∀ m ∈ ms, ∃ n, physicalTokens m = .ok n) :
    Selects usesContext (fun _ _ => ()) used ms := by
  intro m hm _
  obtain ⟨n,hn⟩ := h m hm
  exact usesContext_ok.mpr ⟨n,hn,by rw [used,hn]⟩

theorem selects_collect {ms : List Json}
    (h : ∀ m ∈ ms, ∃ status, compactionStatus m = .ok status) :
    Selects collectCompaction (fun history m => history ++ [m]) (fun _ => false) ms := by
  intro m hm history
  obtain ⟨status,hstatus⟩ := h m hm
  rw [collectCompaction,hstatus]
  rfl

/-- The owner's host serves one history of messages and one of compactions. -/
structure Honest (answer : (q : Call) → Except String q.Answer) (p : Packet)
    (messages compactions : List (List Json)) : Prop where
  turns : Serves answer p "assistant" none [] messages
  checkpoints : Serves answer p "compaction" none [] compactions
  coherent : ∃ names times names' times',
    Coherent "assistant" (2^64-1) [] messages.flatten names times ∧
      Coherent "compaction" (2^64-1) names compactions.flatten names' times'
  readable : ∀ m ∈ messages.flatten, ∃ n, physicalTokens m = .ok n
  known : ∀ m ∈ compactions.flatten, ∃ status, compactionStatus m = .ok status

section
variable {answer : (q : Call) → Except String q.Answer} {p : Packet}
  {messages compactions : List (List Json)}

theorem find?_never (ms : List Json) : ms.find? (fun _ => false) = none := by simp

theorem foldl_collect (history ms : List Json) :
    ms.foldl (fun history m => history ++ [m]) history = history ++ ms := by
  induction ms generalizing history with
  | nil => simp
  | cons m ms ih =>
    rw [List.foldl_cons,ih]
    simp

theorem compactionHistory_served {ids names : List String} {times : List ℕ}
    (hserves : Serves answer p "compaction" none [] compactions)
    (h : Coherent "compaction" (2^64-1) ids compactions.flatten names times)
    (hknown : ∀ m ∈ compactions.flatten, ∃ status, compactionStatus m = .ok status) :
    result answer (compactionHistory p ids) () =
      (if compactions.length ≤ 4 then .ok compactions.flatten
      else .error "physical context lookup exceeded its bounded history",()) := by
  have hsearch := searchPages_served hserves (s := ⟨2^64-1,ids,[]⟩) h (selects_collect hknown) 4
  simp only [find?_never,Option.isSome_none,Bool.false_eq_true,false_or] at hsearch
  by_cases hlength : compactions.length ≤ 4
  · rw [if_pos hlength] at hsearch ⊢
    refine (result_bind answer hsearch).trans ?_
    rw [List.take_of_length_le hlength,through_none (find?_never _),Scan.past,foldl_collect]
    rfl
  · rw [if_neg hlength] at hsearch ⊢
    exact result_bind_error answer hsearch

theorem through_subset (hit : Json → Bool) (ms : List Json) : through hit ms ⊆ ms := by
  refine List.append_subset.mpr ⟨(List.takeWhile_prefix _).subset,fun m hm => ?_⟩
  exact List.mem_of_find?_eq_some (Option.mem_toList.mp hm)

theorem physicalContext_served (h : Honest answer p messages compactions) :
    result answer (physicalContext p) () =
      (match (messages.take 4).flatten.find? used with
      | some m =>
        .ok (m,((through used (messages.take 4).flatten).filterMap messageId).reverse ++ [])
      | none =>
        if messages.length ≤ 4 then .error s!"owner {p.number} physical context is unknown"
        else .error "physical context lookup exceeded its bounded history",()) := by
  obtain ⟨names,times,-,-,hmessages,-⟩ := h.coherent
  have hsearch := searchPages_served h.turns (s := ⟨2^64-1,[],()⟩) hmessages
    (selects_used h.readable) 4
  cases hfound : (messages.take 4).flatten.find? used with
  | none =>
    simp only [hfound,Option.isSome_none,Bool.false_eq_true,false_or] at hsearch
    by_cases hlength : messages.length ≤ 4
    · rw [if_pos hlength] at hsearch
      simp only [if_pos hlength]
      exact result_bind answer hsearch
    · rw [if_neg hlength] at hsearch
      simp only [if_neg hlength]
      exact result_bind_error answer hsearch
  | some m =>
    simp only [hfound,Option.isSome_some,true_or,if_true] at hsearch
    exact result_bind answer hsearch

/-- What is read of an owner's context, if its host serves these histories: the newest message with
physical usage, if it is on one of the first four pages, and all compactions, if they are on four
pages at most; otherwise nothing. -/
theorem context_served (h : Honest answer p messages compactions) :
    result answer (observeContext p) () =
      (match (messages.take 4).flatten.find? used with
      | some m =>
        if compactions.length ≤ 4 then .ok (m,compactions.flatten)
        else .error "physical context lookup exceeded its bounded history"
      | none =>
        if messages.length ≤ 4 then .error s!"owner {p.number} physical context is unknown"
        else .error "physical context lookup exceeded its bounded history",()) := by
  obtain ⟨names,times,names',times',hmessages,hcompactions⟩ := h.coherent
  have hphysical := physicalContext_served h
  cases hfound : (messages.take 4).flatten.find? used with
  | none =>
    simp only [hfound] at hphysical
    by_cases hlength : messages.length ≤ 4
    · simp only [if_pos hlength] at hphysical ⊢
      exact result_bind_error answer hphysical
    · simp only [if_neg hlength] at hphysical ⊢
      exact result_bind_error answer hphysical
  | some m =>
    simp only [hfound] at hphysical
    have hids : ((through used (messages.take 4).flatten).filterMap messageId).reverse ++ [] ⊆
        names := by
      intro id hid
      rw [List.append_nil,List.mem_reverse,List.mem_filterMap] at hid
      obtain ⟨x,hx,hid⟩ := hid
      rw [← hmessages.names_eq,List.mem_filterMap]
      obtain ⟨page,hpage,hx⟩ := List.mem_flatten.mp (through_subset _ _ hx)
      exact ⟨x,List.mem_flatten.mpr ⟨page,List.mem_of_mem_take hpage,hx⟩,hid⟩
    have hhistory := compactionHistory_served h.checkpoints (hcompactions.mono hids) h.known
    refine (result_bind answer hphysical).trans ?_
    by_cases hlength : compactions.length ≤ 4
    · simp only [if_pos hlength] at hhistory ⊢
      exact result_bind answer hhistory
    · simp only [if_neg hlength] at hhistory ⊢
      exact result_bind_error answer hhistory

end

/-! Two pages of messages, the newest without usage, and no compaction. -/

def pagedOwner : Packet := ⟨1,"ses_one","builder","Owner 1",["one"],[],[],[],∅⟩

def pagedMessage (id : String) (time tokens : ℕ) : Json := object [("id",.str id),
  ("type",.str "assistant"),("time",object [("created",nat time)]),("tokens",object
    [("input",nat tokens),("cache",object [("read",nat 0),("write",nat 0)])])]

def pagedMessages : List (List Json) := [[pagedMessage "msg_b" 9 0],[pagedMessage "msg_a" 7 5]]

def pagedAnswer : (q : Call) → Except String q.Answer
  | .acquire => .ok ()
  | .verify => .ok ()
  | .api _ _ path _ =>
    if path = sessionPath pagedOwner (pageSuffix "assistant" none) then
      .ok (pageReply [pagedMessage "msg_b" 9 0] (.str "n"))
    else if path = sessionPath pagedOwner (pageSuffix "assistant" (some "n")) then
      .ok (pageReply [pagedMessage "msg_a" 7 5] .null)
    else .ok (pageReply [] .null)
  | .persist _ => .ok ()
  | .continuation _ _ => .ok ""

theorem paged_honest : Honest pagedAnswer pagedOwner pagedMessages [[]] where
  turns := by
    have hne : sessionPath pagedOwner (pageSuffix "assistant" (some "n")) ≠
        sessionPath pagedOwner (pageSuffix "assistant" none) := by decide +kernel
    have hlast : Serves pagedAnswer pagedOwner "assistant" (some "n") ["n"]
        [[pagedMessage "msg_a" 7 5]] :=
      .last (by simp) (by simp only [pageCall,pagedAnswer,if_neg hne,if_true])
    exact .more (by simp) (by simp) (by decide) (by decide) (by decide)
      (by simp only [pageCall,pagedAnswer,if_true]) hlast
  checkpoints := by
    have hfirst : sessionPath pagedOwner (pageSuffix "compaction" none) ≠
        sessionPath pagedOwner (pageSuffix "assistant" none) := by decide +kernel
    have hsecond : sessionPath pagedOwner (pageSuffix "compaction" none) ≠
        sessionPath pagedOwner (pageSuffix "assistant" (some "n")) := by decide +kernel
    exact .last (by simp)
      (by simp only [pageCall,pagedAnswer,if_neg hfirst,if_neg hsecond])
  coherent := by
    refine ⟨["msg_b","msg_a"],[9,7],[],[],?_,coherent_nil _ _ _⟩
    exact ⟨by decide +kernel,by decide +kernel,by decide +kernel,by decide,by decide,by decide⟩
  readable := by
    have hzero : physicalTokens (pagedMessage "msg_b" 9 0) = .ok 0 := rfl
    have hfive : physicalTokens (pagedMessage "msg_a" 7 5) = .ok 5 := rfl
    simp only [pagedMessages,List.flatten_cons,List.singleton_append,List.flatten_nil,
      List.forall_mem_cons]
    exact ⟨⟨0,hzero⟩,⟨5,hfive⟩,nofun⟩
  known := by simp

theorem paged_context : result pagedAnswer (observeContext pagedOwner) () =
    (.ok (pagedMessage "msg_a" 7 5,[]),()) := (context_served paged_honest).trans rfl

end Driver
end Orchestration
end CanixToolbelt
