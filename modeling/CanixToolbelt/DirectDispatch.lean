import Mathlib.Data.List.Nodup
import CanixToolbelt.Effect

/-! The reload of the resolver's servers file: install it, observe the resolver, signal it, and
observe it again, with a receipt that spares the next signal. -/
namespace CanixToolbelt
namespace DirectDispatch
open Effect

variable {Id : Type}

/-! ## Requests -/

structure Metadata where
  isFile : Bool
  uid : ℕ
  nlink : ℕ
  deriving DecidableEq, Repr

/-- What a synchronisation asks of the host; `create` to `rename` replace the servers file. -/
inductive Req
  | read
  | mode
  | create
  | metadata
  | setLen
  | setPermissions
  | write (servers : String)
  | syncAll
  | rename
  | observe
  | kill
  deriving DecidableEq, Repr

def Rep (Id : Type) : Req → Type
  | .read => String
  | .mode => ℕ
  | .metadata => Metadata
  | .observe => Id
  | _ => Unit

/-- The receipt of the last dispatch, and the last resolver error that was reported. -/
structure State (Id : Type) where
  dnsDispatch : Option (String × Id) := none
  dnsError : Option String := none

abbrev Sync (Id α : Type) := Script Req (Rep Id) (State Id) String α

def ask (q : Req) : Sync Id (Rep Id q) := Script.ask q

def clear : Sync Id Unit := modify fun s => { s with dnsDispatch := none }

/-! ## The synchronisation -/

/-- Whether the servers file is another one, or of another mode. -/
def stale (servers : String) : Sync Id Bool := do
  let current : Except String String ← (ask .read).attempt
  if current.toOption ≠ some servers then pure true
  else do
    let mode : Except String ℕ ← (ask .mode).attempt
    pure (mode.toOption.any fun m => m % 0o1000 ≠ 0o644)

/-- Replace the servers file through a new one of its own. -/
def install (euid : ℕ) (servers : String) : Sync Id Unit := do
  clear
  let _ ← ask .create
  let metadata : Metadata ← ask .metadata
  if !metadata.isFile || metadata.uid ≠ euid || metadata.nlink ≠ 1 then
    throw "invalid DNS servers replacement ownership"
  else do
    let _ ← ask .setLen
    let _ ← ask .setPermissions
    let _ ← ask (.write servers)
    let _ ← ask .syncAll
    let _ ← ask .rename
    pure ()

def observe : Sync Id Id := ask .observe

section
variable [DecidableEq Id]

/-- Signal the resolver, which has to be the same before and after. -/
def signal (servers : String) (resolver : Id) : Sync Id Unit := do
  clear
  let _ ← ask .kill
  let again ← observe
  if again ≠ resolver then throw "resolver changed during reload dispatch"
  else modify fun s => { s with dnsDispatch := some (servers,resolver) }

/-- Missing or starting DNS is no error; it is reported once. -/
def notReady (message : String) : Sync Id Unit :=
  modify fun s => { s with dnsDispatch := none, dnsError := some message }

def dispatch (servers : String) : Sync Id Unit := do
  let resolver ← observe.attempt
  match resolver with
  | .error message => notReady message
  | .ok resolver => do
    modify fun s => { s with dnsError := none }
    let state ← get
    if state.dnsDispatch ≠ some (servers,resolver) then signal servers resolver
    else pure ()

def syncDnsServersWith (euid : ℕ) (servers : String) : Sync Id Unit := do
  let changed ← stale servers
  if changed then install euid servers
  dispatch servers

end

/-! ## The host -/

/-- What happens on the host: what a synchronisation found, did or was refused, and what
others did meanwhile. -/
inductive Event (Id : Type)
  | found (servers : String)
  | installed (servers : String)
  | observed (resolver : Id)
  /-- The signal was delivered to the resolver that ran, if one did. -/
  | reloaded (resolver : Option Id)
  | refused (q : Req)
  | replaced
  | started (resolver : Id)

/-- The events of synchronisations. -/
def Event.own : Event Id → Bool
  | .replaced | .started _ => false
  | _ => true

def Event.starting : Event Id → Option Id
  | .started resolver => some resolver
  | _ => none

/-- The resolver that was started last. -/
def running : List (Event Id) → Option Id
  | [] => none
  | e::es => (running es).or e.starting

/-- The servers file and its replacement, by text and mode, and all that happened. -/
structure Host (Id : Type) where
  file : Option (String × ℕ)
  temp : Option (String × ℕ)
  log : List (Event Id)

def Host.record (w : Host Id) (e : Event Id) : Host Id := { w with log := w.log ++ [e] }

/-- What others may do: start the resolver anew and replace the servers file. -/
inductive Outside : Host Id → Host Id → Prop
  | started (w : Host Id) (resolver : Id) : Outside w (w.record (.started resolver))
  | replaced (w : Host Id) (file : Option (String × ℕ)) :
      Outside w { w.record .replaced with file := file }

/-- A step of the replacement, which may leave anything in it when it fails. -/
def staged (q : Req) (w : Host Id) (temp : Option (String × ℕ)) :
    Except String Unit → Host Id → Prop
  | .ok _, w' => w' = { w with temp := temp }
  | .error _, w' => ∃ left, w' = { w.record (.refused q) with temp := left }

/-- How a request may be answered. -/
def answers : (q : Req) → Host Id → Except String (Rep Id q) → Host Id → Prop
  | .read, w, r, w' => match r with
    | .ok servers => (∃ mode, w.file = some (servers,mode)) ∧ w' = w.record (.found servers)
    | .error _ => w' = w
  | .mode, w, r, w' => w' = w ∧ ∀ mode, r = .ok mode → ∃ servers, w.file = some (servers,mode)
  | .create, w, r, w' => staged .create w (some (w.temp.getD ("",0o644))) r w'
  | .metadata, w, r, w' => match r with
    | .ok _ => w' = w
    | .error _ => w' = w.record (.refused .metadata)
  | .setLen, w, r, w' => staged .setLen w (w.temp.map fun t => ("",t.2)) r w'
  | .setPermissions, w, r, w' => staged .setPermissions w (w.temp.map fun t => (t.1,0o644)) r w'
  | .write servers, w, r, w' =>
    staged (.write servers) w (w.temp.map fun t => (t.1 ++ servers,t.2)) r w'
  | .syncAll, w, r, w' => staged .syncAll w w.temp r w'
  | .rename, w, r, w' => match r with
    | .ok _ => ∃ servers mode, w.temp = some (servers,mode) ∧
      w' = { w.record (.installed servers) with file := w.temp, temp := none }
    | .error _ => w' = w.record (.refused .rename)
  | .observe, w, r, w' => match r with
    | .ok resolver => w' = w.record (.observed resolver)
    | .error _ => w' = w.record (.refused .observe)
  | .kill, w, r, w' => match r with
    | .ok _ => w' = w.record (.reloaded (running w.log))
    | .error _ => w' = w.record (.refused .kill)

def host (Id : Type) : World Req (fun q => Except String (Rep Id q)) (Host Id) where
  step := answers
  rely := Relation.ReflTransGen Outside
  rely_refl := fun _ => .refl
  rely_trans := fun _ _ _ => .trans

/-- Synchronisations one after another, any of which may stop short; a new process has no
receipt. -/
inductive History [DecidableEq Id] (euid : ℕ) : State Id → Host Id → Prop
  | start (w : Host Id) (h : w.log = []) : History euid {} w
  | outside {s : State Id} {w w' : Host Id} (h : History euid s w) (hw : Outside w w') :
      History euid s w'
  | call {s s' : State Id} {w w' : Host Id} {servers : String} {r : Except String Unit}
      (h : History euid s w)
      (hr : Reach (host Id) ((syncDnsServersWith euid servers).start s) w (.ret (r,s')) w') :
      History euid s' w'
  | crash {s : State Id} {w w' : Host Id} {servers : String}
      {p : Prog Req (fun q => Except String (Rep Id q)) (Except String Unit × State Id)}
      (h : History euid s w)
      (hr : Reach (host Id) ((syncDnsServersWith euid servers).start s) w p w') :
      History euid {} w'

/-! ## What a synchronisation leaves -/

/-- Its events, in their order. -/
def Host.own (w : Host Id) : List (Event Id) := w.log.filter Event.own

theorem own_record {w : Host Id} {e : Event Id} (h : e.own = true) :
    (w.record e).own = w.own ++ [e] := by
  simp [Host.own,Host.record,h]

theorem Outside.own {w w' : Host Id} (h : Outside w w') : w'.own = w.own := by
  cases h <;> simp [Host.own,Host.record,Event.own]

theorem Outside.temp {w w' : Host Id} (h : Outside w w') : w'.temp = w.temp := by
  cases h <;> rfl

theorem rely_own {w w' : Host Id} (h : (host Id).rely w w') :
    w'.own = w.own ∧ w'.temp = w.temp := by
  induction h with
  | refl => exact ⟨rfl,rfl⟩
  | tail _ hw ih => exact ⟨hw.own.trans ih.1,hw.temp.trans ih.2⟩

/-- The end of what follows the servers file: the receipt before it, the result, the receipt
behind it, and the events. -/
inductive Dispatched (servers : String) (before : Option (String × Id)) :
    Except String Unit → Option (String × Id) → List (Event Id) → Prop
  | unobserved : Dispatched servers before (.ok ()) none [.refused .observe]
  | current {id : Id} (h : before = some (servers,id)) :
      Dispatched servers before (.ok ()) (some (servers,id)) [.observed id]
  | unsignalled {id : Id} {e : String} :
      Dispatched servers before (.error e) none [.observed id,.refused .kill]
  | unconfirmed {id : Id} {g : Option Id} {e : String} :
      Dispatched servers before (.error e) none [.observed id,.reloaded g,.refused .observe]
  | changed {id other : Id} {g : Option Id} {e : String} (h : other ≠ id) :
      Dispatched servers before (.error e) none [.observed id,.reloaded g,.observed other]
  | signalled {id : Id} {g : Option Id} :
      Dispatched servers before (.ok ()) (some (servers,id))
        [.observed id,.reloaded g,.observed id]

/-- The end of a synchronisation. -/
inductive Outcome (servers : String) (before : Option (String × Id)) :
    Except String Unit → Option (String × Id) → List (Event Id) → Prop
  | uninstalled {e : String} {found refusal : List (Event Id)}
      (hf : found = [] ∨ ∃ other, found = [.found other])
      (hr : refusal = [] ∨ ∃ q, refusal = [.refused q]) :
      Outcome servers before (.error e) none (found ++ refusal)
  | kept {r : Except String Unit} {after : Option (String × Id)} {es : List (Event Id)}
      (h : Dispatched servers before r after es) :
      Outcome servers before r after (.found servers::es)
  | replaced {r : Except String Unit} {after : Option (String × Id)} {found es : List (Event Id)}
      (hf : found = [] ∨ ∃ other, found = [.found other]) (h : Dispatched servers none r after es) :
      Outcome servers before r after (found ++ .installed servers::es)

/-- A reload that was delivered behind the installed servers, between two observations of
the same resolver. -/
def Witnessed (es : List (Event Id)) (servers : String) (id : Id) : Prop :=
  ∃ e g, (e = .found servers ∨ e = .installed servers) ∧
    [e,.observed id,.reloaded g,.observed id] <:+: es

def Failed (r : Except String Unit) (es : List (Event Id)) : Prop :=
  (∃ e, r = .error e) ∨ ∃ q, .refused q ∈ es

section
variable {servers : String} {before after : Option (String × Id)} {r : Except String Unit}
  {es : List (Event Id)}

theorem Dispatched.failed (h : Dispatched servers before r after es) (hf : Failed r es) :
    after = none := by
  cases h with
  | current h => simp [Failed] at hf
  | signalled => simp [Failed] at hf
  | _ => rfl

theorem Outcome.failed (h : Outcome servers before r after es) (hf : Failed r es) :
    after = none := by
  cases h with
  | uninstalled hf hr => rfl
  | kept h => exact h.failed (by simpa [Failed] using hf)
  | @replaced _ _ found es hfound h =>
    refine h.failed ?_
    rcases hfound with rfl | ⟨other,rfl⟩ <;> simpa [Failed] using hf

theorem Dispatched.retries (h : Dispatched servers none r after es) :
    (∃ g, .reloaded g ∈ es) ∨ Failed r es := by
  cases h with
  | current h => cases h
  | unobserved => exact .inr (.inr ⟨.observe,by simp⟩)
  | unsignalled => exact .inr (.inl ⟨_,rfl⟩)
  | unconfirmed => exact .inr (.inl ⟨_,rfl⟩)
  | changed => exact .inr (.inl ⟨_,rfl⟩)
  | @signalled id g => exact .inl ⟨g,by simp⟩

theorem Outcome.retries (h : Outcome servers none r after es) :
    (∃ g, .reloaded g ∈ es) ∨ Failed r es := by
  cases h with
  | uninstalled => exact .inr (.inl ⟨_,rfl⟩)
  | kept h =>
    rcases h.retries with ⟨g,hg⟩ | hf
    · exact .inl ⟨g,List.mem_cons_of_mem _ hg⟩
    · exact .inr (hf.imp id fun ⟨q,hq⟩ => ⟨q,List.mem_cons_of_mem _ hq⟩)
  | replaced hfound h =>
    rcases h.retries with ⟨g,hg⟩ | hf
    · exact .inl ⟨g,by simp [hg]⟩
    · exact .inr (hf.imp id fun ⟨q,hq⟩ => ⟨q,by simp [hq]⟩)

theorem Dispatched.receipt {receipt : String × Id}
    (h : Dispatched servers before r (some receipt) es) :
    before = some receipt ∨ ∃ id g, receipt = (servers,id) ∧
      es = [.observed id,.reloaded g,.observed id] := by
  cases h with
  | current h => exact .inl h
  | @signalled id g => exact .inr ⟨id,g,rfl,rfl⟩

/-- A receipt is the one from before, or has its reload among the events. -/
theorem Outcome.receipt {receipt : String × Id}
    (h : Outcome servers before r (some receipt) es) :
    before = some receipt ∨ Witnessed es receipt.1 receipt.2 := by
  cases h with
  | kept h =>
    rcases h.receipt with h | ⟨id,g,rfl,rfl⟩
    · exact .inl h
    · exact .inr ⟨_,g,.inl rfl,List.infix_rfl⟩
  | @replaced _ _ found _ hfound h =>
    rcases h.receipt with h | ⟨id,g,rfl,rfl⟩
    · cases h
    · exact .inr ⟨_,g,.inr rfl,(List.suffix_append found _).isInfix⟩

theorem Witnessed.append {more : List (Event Id)} {id : Id} (h : Witnessed es servers id) :
    Witnessed (es ++ more) servers id := by
  obtain ⟨e,g,he,hin⟩ := h
  exact ⟨e,g,he,hin.trans (List.prefix_append es more).isInfix⟩

end

/-! ## One synchronisation -/

section
variable {s : State Id} {w : Host Id} {base : List (Event Id)}

abbrev Free : Host Id → Req → Prop := fun _ _ => True

/-- One request: others may act before it, but leave its events and the replacement alone. -/
theorem wp_step {q : Req} {R : Rep Id q → Host Id → Prop} (hw : w.own = base)
    (hok : ∀ w₁ x w', w₁.own = base → w₁.temp = w.temp → answers q w₁ (.ok x) w' → R x w')
    (herr : ∀ w₁ e w', w₁.own = base → answers q w₁ (.error e) w' →
      w'.own = base ++ [.refused q]) :
    Script.wp (host Id) Free (ask q : Sync Id (Rep Id q))
      (Script.Ends (fun x s' w' => s' = s ∧ R x w')
        fun _ s' w' => s' = s ∧ w'.own = base ++ [.refused q]) s w := by
  intro w₁ hr
  obtain ⟨hown,htemp⟩ := rely_own hr
  refine ⟨trivial,fun r w' hs => ?_⟩
  cases r with
  | ok x => exact ⟨rfl,hok w₁ x w' (hown.trans hw) htemp hs⟩
  | error e => exact ⟨rfl,herr w₁ e w' (hown.trans hw) hs⟩

theorem staged_ok {q : Req} {w w' : Host Id} {temp : Option (String × ℕ)} {u : Unit}
    (h : staged q w temp (.ok u) w') : w'.own = w.own ∧ w'.temp = temp := by
  cases h
  exact ⟨rfl,rfl⟩

theorem staged_error {q : Req} {w w' : Host Id} {temp : Option (String × ℕ)} {e : String}
    (h : staged q w temp (.error e) w') : w'.own = w.own ++ [.refused q] := by
  obtain ⟨left,rfl⟩ := h
  exact own_record rfl

/-- A step of the replacement. -/
theorem wp_staged {q : Req} {f : Option (String × ℕ) → Option (String × ℕ)} (hw : w.own = base)
    (hok : ∀ (w₁ : Host Id) x w', answers q w₁ (.ok x) w' → staged q w₁ (f w₁.temp) (.ok ()) w')
    (herr : ∀ (w₁ : Host Id) e w', answers q w₁ (.error e) w' → staged q w₁ (f w₁.temp) (.error e) w') :
    Script.wp (host Id) Free (ask q : Sync Id (Rep Id q))
      (Script.Ends (fun _ s' w' => s' = s ∧ w'.own = base ∧ w'.temp = f w.temp)
        fun _ s' w' => s' = s ∧ w'.own = base ++ [.refused q]) s w := by
  refine wp_step (R := fun _ w' => w'.own = base ∧ w'.temp = f w.temp) hw ?_ ?_
  · intro w₁ x w' hown htemp hs
    obtain ⟨ho,ht⟩ := staged_ok (hok w₁ x w' hs)
    exact ⟨ho.trans hown,by rw [ht,htemp]⟩
  · intro w₁ e w' hown hs
    rw [staged_error (herr w₁ e w' hs),hown]

/-- The receipt is gone before the first step, and a finished replacement has this text. -/
theorem wp_install (euid : ℕ) (servers : String) (hw : w.own = base) :
    Script.wp (host Id) Free (install euid servers)
      (Script.Ends
        (fun _ s' w' => s' = { s with dnsDispatch := none } ∧
          w'.own = base ++ [.installed servers])
        fun _ s' w' => s'.dnsDispatch = none ∧
          ∃ refusal, (refusal = [] ∨ ∃ q, refusal = [.refused q]) ∧ w'.own = base ++ refusal)
      s w := by
  have hrefused : ∀ {q : Req} {s' : State Id} {w' : Host Id},
      s' = { s with dnsDispatch := none } ∧ w'.own = base ++ [.refused q] →
        s'.dnsDispatch = none ∧
          ∃ refusal, (refusal = [] ∨ ∃ q, refusal = [.refused q]) ∧ w'.own = base ++ refusal := by
    rintro q s' w' ⟨rfl,h⟩
    exact ⟨rfl,[.refused q],.inr ⟨q,rfl⟩,h⟩
  refine (Script.wp_modify_then).2 ?_
  refine Script.wp_seq (wp_staged (f := fun t => some (t.getD ("",0o644))) hw
    (fun _ _ _ h => h) (fun _ _ _ h => h)) ?_ (fun _ _ _ h => hrefused h)
  rintro _ _ w ⟨rfl,hw,htemp⟩
  refine Script.wp_seq (wp_step (R := fun _ w' => w'.own = base ∧ w'.temp = w.temp) hw
    ?_ ?_) ?_ (fun _ _ _ h => hrefused h)
  · rintro w₁ x w' hown ht rfl
    exact ⟨hown,ht⟩
  · rintro w₁ e w' hown rfl
    rw [own_record rfl,hown]
  rintro metadata _ w ⟨rfl,hw,ht⟩
  by_cases hmeta : (!metadata.isFile || metadata.uid ≠ euid || metadata.nlink ≠ 1) = true
  · rw [if_pos hmeta]
    exact (Script.wp_throw _).2 ⟨rfl,[],.inl rfl,by simpa using hw⟩
  rw [if_neg hmeta]
  rw [htemp] at ht
  refine Script.wp_seq (wp_staged (f := Option.map fun t : String × ℕ => ("",t.2)) hw
    (fun _ _ _ h => h) (fun _ _ _ h => h)) ?_ (fun _ _ _ h => hrefused h)
  rintro _ _ w ⟨rfl,hw,h₁⟩
  refine Script.wp_seq (wp_staged (f := Option.map fun t : String × ℕ => (t.1,0o644)) hw
    (fun _ _ _ h => h) (fun _ _ _ h => h)) ?_ (fun _ _ _ h => hrefused h)
  rintro _ _ w ⟨rfl,hw,h₂⟩
  refine Script.wp_seq (wp_staged (f := Option.map fun t : String × ℕ => (t.1 ++ servers,t.2)) hw
    (fun _ _ _ h => h) (fun _ _ _ h => h)) ?_ (fun _ _ _ h => hrefused h)
  rintro _ _ w ⟨rfl,hw,h₃⟩
  refine Script.wp_seq (wp_staged (f := id) hw
    (fun _ _ _ h => h) (fun _ _ _ h => h)) ?_ (fun _ _ _ h => hrefused h)
  rintro _ _ w ⟨rfl,hw,h₄⟩
  have htext : w.temp = some (servers,0o644) := by
    rw [h₄,id,h₃,h₂,h₁,ht]
    simp
  refine Script.wp_seq (wp_step (R := fun _ w' => w'.own = base ++ [.installed servers]) hw
    ?_ ?_) ?_ (fun _ _ _ h => hrefused h)
  · rintro w₁ x w' hown ht ⟨text,mode,htext',rfl⟩
    rw [ht,htext] at htext'
    cases htext'
    exact (own_record rfl).trans (by rw [hown])
  · rintro w₁ e w' hown rfl
    rw [own_record rfl,hown]
  rintro _ _ w ⟨rfl,hw⟩
  exact (Script.wp_pure _).2 ⟨rfl,hw⟩

/-- A file that is not stale was found with this text. -/
theorem wp_stale (servers : String) (hw : w.own = base) :
    Script.wp (host Id) Free (stale servers)
      (Script.Ends
        (fun changed s' w' => s' = s ∧ ∃ found, w'.own = base ++ found ∧
          (if changed then found = [] ∨ ∃ other, found = [.found other]
            else found = [.found servers]))
        fun _ _ _ => False) s w := by
  have hread : Script.wp (host Id) Free (ask .read : Sync Id String).attempt
      (Script.Ends (fun current s' w' => s' = s ∧ ∃ found, w'.own = base ++ found ∧
        (found = [] ∨ ∃ other, found = [.found other]) ∧
        (current.toOption = some servers → found = [.found servers])) fun _ _ _ => False) s w := by
    refine Script.wp_attempt.2 fun w₁ hr => ⟨trivial,fun r w' hs => ?_⟩
    have hown := (rely_own hr).1.trans hw
    cases r with
    | error e =>
      cases hs
      exact ⟨rfl,[],by simpa using hown,.inl rfl,fun h => nomatch h⟩
    | ok text =>
      obtain ⟨-,rfl⟩ := hs
      refine ⟨rfl,[.found text],by rw [own_record rfl,hown],.inr ⟨text,rfl⟩,fun h => ?_⟩
      cases h
      rfl
  refine Script.wp_seq hread ?_ (fun _ _ _ h => h.elim)
  rintro current _ w ⟨rfl,found,hw,hfound,hsame⟩
  by_cases hne : current.toOption = some servers
  · rw [if_neg (not_not_intro hne)]
    refine Script.wp_bind.2 (Script.wp_attempt.2 fun w₁ hr => ⟨trivial,fun r w' hs => ?_⟩)
    obtain rfl : w' = w₁ := hs.1
    refine ⟨rfl,found,(rely_own hr).1.trans hw,?_⟩
    split
    · exact hfound
    · exact hsame hne
  · rw [if_pos hne]
    exact (Script.wp_pure _).2 ⟨rfl,found,hw,by simpa using hfound⟩

section
variable [DecidableEq Id]

theorem wp_signal (servers : String) (id : Id) (hw : w.own = base ++ [.observed id]) :
    Script.wp (host Id) Free (signal servers id)
      (fun r s' w' => ∃ es, w'.own = base ++ es ∧
        Dispatched servers s.dnsDispatch r s'.dnsDispatch es) s w := by
  refine (Script.wp_modify_then).2 ?_
  refine Script.wp_seq (wp_step (R := fun _ w' => ∃ g,
    w'.own = base ++ [.observed id,.reloaded g]) hw ?_ ?_) ?_ ?_
  · rintro w₁ x w' hown - rfl
    exact ⟨running w₁.log,by rw [own_record rfl,hown]; simp⟩
  · rintro w₁ e w' hown rfl
    rw [own_record rfl,hown]
  · rintro _ _ w ⟨rfl,g,hw⟩
    refine Script.wp_seq (wp_step (R := fun x w' =>
      w'.own = base ++ [.observed id,.reloaded g,.observed x]) hw ?_ ?_) ?_ ?_
    · rintro w₁ x w' hown - rfl
      rw [own_record rfl,hown]
      simp
    · rintro w₁ e w' hown rfl
      rw [own_record rfl,hown]
    · rintro again _ w ⟨rfl,hw⟩
      by_cases hsame : again = id
      · subst hsame
        rw [if_neg (not_not_intro rfl)]
        exact (Script.wp_modify _).2 ⟨_,hw,.signalled⟩
      · rw [if_pos hsame]
        exact (Script.wp_throw _).2 ⟨_,hw,.changed hsame⟩
    · rintro e _ w' ⟨rfl,hw⟩
      exact ⟨[.observed id,.reloaded g,.refused .observe],by rw [hw]; simp,.unconfirmed⟩
  · rintro e _ w' ⟨rfl,hw⟩
    exact ⟨[.observed id,.refused .kill],by rw [hw]; simp,.unsignalled⟩

theorem wp_dispatch (servers : String) (hw : w.own = base) :
    Script.wp (host Id) Free (dispatch servers)
      (fun r s' w' => ∃ es, w'.own = base ++ es ∧
        Dispatched servers s.dnsDispatch r s'.dnsDispatch es) s w := by
  refine Script.wp_seq (Script.wp_attempt_ends (F := fun _ _ _ => False)
    (wp_step (R := fun x w' => w'.own = base ++ [.observed x]) hw ?_ ?_)) ?_ ?_
  · rintro w₁ x w' hown - rfl
    rw [own_record rfl,hown]
  · rintro w₁ e w' hown rfl
    rw [own_record rfl,hown]
  · rintro (e | id) s' w h
    · obtain ⟨rfl,hw⟩ := h
      exact (Script.wp_modify _).2 ⟨_,hw,.unobserved⟩
    · obtain ⟨rfl,hw⟩ := h
      refine (Script.wp_modify_then).2 ((Script.wp_get_then).2 ?_)
      by_cases hcurrent : s'.dnsDispatch = some (servers,id)
      · rw [if_neg (not_not_intro hcurrent)]
        exact (Script.wp_pure _).2 ⟨_,hw,by rw [hcurrent]; exact .current rfl⟩
      · rw [if_pos hcurrent]
        exact wp_signal servers id hw
  · exact fun _ _ _ h => h.elim

theorem wp_sync (euid : ℕ) (servers : String) (hw : w.own = base) :
    Script.wp (host Id) Free (syncDnsServersWith euid servers)
      (fun r s' w' => ∃ es, w'.own = base ++ es ∧
        Outcome servers s.dnsDispatch r s'.dnsDispatch es) s w := by
  refine Script.wp_seq (wp_stale servers hw) ?_ (fun _ _ _ h => h.elim)
  rintro (_ | _) _ w ⟨rfl,found,hw,hfound⟩
  · simp only [Bool.false_eq_true,if_false] at hfound
    subst hfound
    refine Script.wp_mono (wp_dispatch servers hw) ?_
    rintro r s' w' ⟨es,hw',h⟩
    exact ⟨_,by rw [hw']; simp,.kept h⟩
  · simp only [if_true] at hfound
    refine Script.wp_seq (wp_install euid servers hw) ?_ ?_
    · rintro _ _ w ⟨rfl,hw⟩
      refine Script.wp_mono (wp_dispatch servers hw) ?_
      rintro r s' w' ⟨es,hw',h⟩
      exact ⟨_,by rw [hw']; simp,.replaced hfound h⟩
    · rintro e s' w' ⟨hs,refusal,hrefusal,hw'⟩
      rw [hs]
      exact ⟨_,by rw [hw',List.append_assoc],.uninstalled hfound hrefusal⟩

end
end

/-! ## Every run -/

theorem running_append (as bs : List (Event Id)) :
    running (as ++ bs) = (running bs).or (running as) := by
  induction as with
  | nil => simp [running]
  | cons e as ih => rw [List.cons_append,running,running,ih,Option.or_assoc]

theorem running_mem {es : List (Event Id)} {id : Id} (h : running es = some id) :
    id ∈ es.filterMap Event.starting := by
  induction es with
  | nil => cases h
  | cons e es ih =>
    rw [running,Option.or_eq_some_iff] at h
    rcases h with h | ⟨-,h⟩
    · exact List.mem_filterMap.mpr (by
        obtain ⟨e',he,hid⟩ := List.mem_filterMap.mp (ih h)
        exact ⟨e',List.mem_cons_of_mem _ he,hid⟩)
    · exact List.mem_filterMap.mpr ⟨e,List.mem_cons_self,h⟩

/-- Every signal went to the resolver that ran. -/
def Delivered (log : List (Event Id)) : Prop :=
  ∀ as g bs, log = as ++ .reloaded g::bs → g = running as

theorem Delivered.snoc {log : List (Event Id)} (h : Delivered log) {e : Event Id}
    (he : ∀ g, e = .reloaded g → g = running log) : Delivered (log ++ [e]) := by
  intro as g bs hlog
  rcases List.eq_nil_or_concat bs with rfl | ⟨bs,e',rfl⟩
  · obtain ⟨rfl,hlast⟩ := List.append_inj' hlog rfl
    exact he g (List.singleton_inj.mp hlast)
  · rw [List.concat_eq_append,← List.cons_append,← List.append_assoc] at hlog
    exact h as g bs (List.append_inj' hlog rfl).1

theorem Delivered.outside {w w' : Host Id} (h : Delivered w.log) (hw : Outside w w') :
    Delivered w'.log := by
  cases hw with
  | started => exact h.snoc (fun _ he => nomatch he)
  | replaced => exact h.snoc (fun _ he => nomatch he)

theorem Delivered.staged {q : Req} {w w' : Host Id} {temp : Option (String × ℕ)}
    {r : Except String Unit} (h : Delivered w.log) (hs : staged q w temp r w') :
    Delivered w'.log := by
  cases r with
  | ok u => cases hs; exact h
  | error e =>
    obtain ⟨left,rfl⟩ := hs
    exact h.snoc (fun _ he => nomatch he)

theorem Delivered.answers {q : Req} {w w' : Host Id} {r : Except String (Rep Id q)}
    (h : Delivered w.log) (hs : answers q w r w') : Delivered w'.log := by
  cases q with
  | read =>
    cases r with
    | ok text => obtain ⟨-,rfl⟩ := hs; exact h.snoc (fun _ he => nomatch he)
    | error e => cases hs; exact h
  | mode => obtain ⟨rfl,-⟩ := hs; exact h
  | metadata =>
    cases r with
    | ok m => cases hs; exact h
    | error e => cases hs; exact h.snoc (fun _ he => nomatch he)
  | rename =>
    cases r with
    | ok u => obtain ⟨text,mode,-,rfl⟩ := hs; exact h.snoc (fun _ he => nomatch he)
    | error e => cases hs; exact h.snoc (fun _ he => nomatch he)
  | observe => cases r <;> cases hs <;> exact h.snoc (fun _ he => nomatch he)
  | kill =>
    cases r with
    | ok u => cases hs; exact h.snoc (fun g he => by cases he; rfl)
    | error e => cases hs; exact h.snoc (fun _ he => nomatch he)
  | create => exact Delivered.staged h hs
  | setLen => exact Delivered.staged h hs
  | setPermissions => exact Delivered.staged h hs
  | write servers => exact Delivered.staged h hs
  | syncAll => exact Delivered.staged h hs

theorem rely_keeps {I : Host Id → Prop} (ho : ∀ w w', I w → Outside w w' → I w')
    {w w' : Host Id} (h : (host Id).rely w w') (hw : I w) : I w' := by
  induction h with
  | refl => exact hw
  | tail _ hstep ih => exact ho _ _ ih hstep

/-- What others and every answer keep holds to the end of a run. -/
theorem reach_keeps {α : Type} {I : Host Id → Prop}
    (ho : ∀ w w', I w → Outside w w' → I w') (hs : ∀ q w r w', I w → answers q w r w' → I w')
    {p p' : Prog Req (fun q => Except String (Rep Id q)) α} {w w' : Host Id}
    (h : Reach (host Id) p w p' w') (hw : I w) : I w' := by
  induction h with
  | refl => exact hw
  | rely hrely _ ih => exact ih (rely_keeps ho hrely hw)
  | step hstep _ ih => exact ih (hs _ _ _ _ hw hstep)

/-- Observations tell the resolver that runs, and no resolver is started twice. -/
structure Honest (log : List (Event Id)) : Prop where
  observed : ∀ as id bs, log = as ++ .observed id::bs → running as = some id
  fresh : (log.filterMap Event.starting).Nodup

theorem split_of_cons_sublist {α : Type} {x : α} {xs ys : List α}
    (h : (x::xs).Sublist ys) : ∃ as bs, ys = as ++ x::bs ∧ xs.Sublist bs := by
  obtain ⟨l,r,rfl,hx,hr⟩ := List.cons_sublist_iff.mp h
  obtain ⟨as,bs,rfl⟩ := List.append_of_mem hx
  exact ⟨as,bs ++ r,by simp,hr.trans (List.sublist_append_right _ _)⟩

/-- Between two honest observations of one resolver no other one runs. -/
theorem Honest.reloaded {log : List (Event Id)} (hh : Honest log) (hd : Delivered log)
    {id : Id} {g : Option Id} (h : [.observed id,.reloaded g,.observed id].Sublist log) :
    g = some id := by
  obtain ⟨as,rest,rfl,h₁⟩ := split_of_cons_sublist h
  obtain ⟨bs,rest,rfl,h₂⟩ := split_of_cons_sublist h₁
  obtain ⟨cs,rest,rfl,-⟩ := split_of_cons_sublist h₂
  have hbefore : running as = some id := hh.observed as id _ rfl
  have hg := hd (as ++ .observed id::bs) g (cs ++ .observed id::rest) (by simp)
  have hafter := hh.observed (as ++ .observed id::bs ++ .reloaded g::cs) id rest (by simp)
  have hb : running (.observed id::bs) = running bs := by simp [running,Event.starting]
  have hc : running (.reloaded g::cs) = running cs := by simp [running,Event.starting]
  rw [running_append,hb,hbefore] at hg
  rw [running_append,running_append,hb,hc,hbefore,← hg] at hafter
  cases hcs : running cs with
  | none => simpa [hcs] using hafter
  | some other =>
    -- the resolver of the first observation would have to be started once more
    rw [hcs,Option.some_or] at hafter
    cases hafter
    have hfresh := hh.fresh
    simp only [List.filterMap_append,List.filterMap_cons,Event.starting] at hfresh
    have hdisjoint := (List.nodup_append.mp hfresh).2.2
    refine absurd rfl (hdisjoint id (running_mem hbefore) id ?_)
    simp [running_mem hcs]

section
variable [DecidableEq Id] {euid : ℕ} {s s' : State Id} {w w' : Host Id}

/-- What a returned synchronisation leaves. -/
theorem sync_outcome {servers : String} {r : Except String Unit}
    (h : Reach (host Id) ((syncDnsServersWith euid servers).start s) w (.ret (r,s')) w') :
    ∃ es, w'.own = w.own ++ es ∧ Outcome servers s.dnsDispatch r s'.dnsDispatch es :=
  wp_returned (wp_reach (wp_sync euid servers rfl) h) rfl

theorem History.delivered (h : History euid s w) : Delivered w.log := by
  have hkeeps : ∀ {p p' : Prog Req (fun q => Except String (Rep Id q))
      (Except String Unit × State Id)} {w w' : Host Id}, Reach (host Id) p w p' w' →
      Delivered w.log → Delivered w'.log :=
    fun hr hw => reach_keeps (I := fun w => Delivered w.log) (fun _ _ h ho => h.outside ho)
      (fun _ _ _ _ h hs => h.answers hs) hr hw
  induction h with
  | start w h =>
    intro as g bs hlog
    rw [h] at hlog
    simp at hlog
  | outside _ hw ih => exact ih.outside hw
  | call _ hr ih => exact hkeeps hr ih
  | crash _ hr ih => exact hkeeps hr ih

theorem History.witnessed (h : History euid s w) {servers : String} {id : Id}
    (hs : s.dnsDispatch = some (servers,id)) : Witnessed w.own servers id := by
  induction h with
  | start w h => cases hs
  | outside _ hw ih =>
    rw [hw.own]
    exact ih hs
  | call _ hr ih =>
    obtain ⟨es,hown,houtcome⟩ := sync_outcome hr
    rw [hs] at houtcome
    rw [hown]
    rcases houtcome.receipt with hbefore | ⟨e,g,he,hin⟩
    · exact (ih hbefore).append
    · exact ⟨e,g,he,hin.trans (List.suffix_append _ _).isInfix⟩
  | crash => cases hs

/-- A receipt tells of a reload that was delivered: behind the installed servers, to the
resolver that was observed before and after.  Whatever fails clears it, and without it the
next synchronisation signals or fails itself. -/
theorem receipt_truthful (h : History euid s w) :
    (∀ servers id, s.dnsDispatch = some (servers,id) → ∃ e g,
      (e = .found servers ∨ e = .installed servers) ∧
      [e,.observed id,.reloaded g,.observed id] <:+: w.own ∧ (Honest w.log → g = some id)) ∧
    ∀ servers r s' w',
      Reach (host Id) ((syncDnsServersWith euid servers).start s) w (.ret (r,s')) w' →
        ∃ es, w'.own = w.own ++ es ∧ (Failed r es → s'.dnsDispatch = none) ∧
          (s.dnsDispatch = none → (∃ g, .reloaded g ∈ es) ∨ Failed r es) := by
  constructor
  · intro servers id hs
    obtain ⟨e,g,he,hin⟩ := h.witnessed hs
    refine ⟨e,g,he,hin,fun hhonest => hhonest.reloaded h.delivered ?_⟩
    have hsub : [.observed id,.reloaded g,.observed id].Sublist w.own :=
      (List.sublist_cons_self e _).trans hin.sublist
    exact hsub.trans List.filter_sublist
  · intro servers r s' w' hr
    obtain ⟨es,hown,houtcome⟩ := sync_outcome hr
    refine ⟨es,hown,houtcome.failed,fun hs => ?_⟩
    rw [hs] at houtcome
    exact houtcome.retries

end

/-! ## A host that answers everything -/

def serve : (q : Req) → Host ℕ → Except String (Rep ℕ q) × Host ℕ
  | .read, w => match w.file with
    | some (text,_) => (.ok text,w.record (.found text))
    | none => (.error "absent",w)
  | .mode, w => match w.file with
    | some (_,mode) => (.ok mode,w)
    | none => (.error "absent",w)
  | .create, w => (.ok (),{ w with temp := some (w.temp.getD ("",0o644)) })
  | .metadata, w => (.ok ⟨true,0,1⟩,w)
  | .setLen, w => (.ok (),{ w with temp := w.temp.map fun t => ("",t.2) })
  | .setPermissions, w => (.ok (),{ w with temp := w.temp.map fun t => (t.1,0o644) })
  | .write servers, w => (.ok (),{ w with temp := w.temp.map fun t => (t.1 ++ servers,t.2) })
  | .syncAll, w => (.ok (),w)
  | .rename, w => match w.temp with
    | some (text,_) => (.ok (),{ w.record (.installed text) with file := w.temp, temp := none })
    | none => (.error "absent",w.record (.refused .rename))
  | .observe, w => match running w.log with
    | some id => (.ok id,w.record (.observed id))
    | none => (.error "absent",w.record (.refused .observe))
  | .kill, w => (.ok (),w.record (.reloaded (running w.log)))

theorem serve_answers (q : Req) (w : Host ℕ) : answers q w (serve q w).1 (serve q w).2 := by
  obtain ⟨file,temp,log⟩ := w
  cases q with
  | read =>
    cases file with
    | none => rfl
    | some f => exact ⟨⟨f.2,rfl⟩,rfl⟩
  | mode =>
    cases file with
    | none => exact ⟨rfl,fun mode h => nomatch h⟩
    | some f => exact ⟨rfl,fun mode h => ⟨f.1,by cases h; rfl⟩⟩
  | rename =>
    cases temp with
    | none => rfl
    | some t => exact ⟨t.1,t.2,rfl,rfl⟩
  | observe => cases h : running log <;> simp [serve,answers,h]
  | _ => rfl

/-- A first synchronisation on a host whose resolver 7 runs. -/
theorem receipt_truthful_first :
    ∃ w : Host ℕ, w.own = [.installed "server=9.9.9.9\n",.observed 7,.reloaded (some 7),.observed 7] ∧
      ∃ e g, (e = .found "server=9.9.9.9\n" ∨ e = .installed "server=9.9.9.9\n") ∧
        [e,.observed 7,.reloaded g,.observed 7] <:+: w.own ∧ (Honest w.log → g = some 7) := by
  have hbegin : History 0 ({} : State ℕ) ⟨none,none,[.started 7]⟩ :=
    .outside (.start ⟨none,none,[]⟩ rfl) (.started ⟨none,none,[]⟩ 7)
  have hrun := reach_advance (M := host ℕ) serve_answers 12
    ((syncDnsServersWith 0 "server=9.9.9.9\n").start {}) ⟨none,none,[.started 7]⟩
  exact ⟨_,rfl,(receipt_truthful (.call hbegin hrun)).1 _ _ rfl⟩

end DirectDispatch
end CanixToolbelt
