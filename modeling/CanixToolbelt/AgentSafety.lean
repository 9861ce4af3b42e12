import Mathlib.Data.List.TakeWhile
import CanixToolbelt.Delimited
import CanixToolbelt.Fallible
import CanixToolbelt.Glob

/-! Command rules of agents: rendering of the programs that are safe to run unasked, and their
merge with the rules of a policy, which must not overlap. -/
namespace CanixToolbelt
namespace AgentSafety
open Fallible Glob

/-! ## Overlap -/

/-- A leading `*=*` argument that assigns variables, removed. -/
def stripEnvironmentPrefix (pattern : List Char) : List Char :=
  match pattern with
  | '*' :: '=' :: '*' :: rest =>
    match rest.dropWhile (· = '*') with
    | ' '::body => body
    | _ => pattern
  | _ => pattern

def hasWildcard (pattern : List Char) : Bool := '*' ∈ stripEnvironmentPrefix pattern

/-- What stands before the first `*`. -/
def literal (pattern : List Char) : List Char := pattern.takeWhile (· ≠ '*')

def patternPrefix (pattern : List Char) : List Char :=
  if hasWildcard pattern then literal (stripEnvironmentPrefix pattern) else pattern

def patternsMayOverlap (left right : String) : Bool :=
  let leftPattern := stripEnvironmentPrefix left.toList
  let rightPattern := stripEnvironmentPrefix right.toList
  let leftPrefix := patternPrefix leftPattern
  let rightPrefix := patternPrefix rightPattern
  if !hasWildcard leftPattern && !hasWildcard rightPattern then leftPattern = rightPattern
  else if hasWildcard leftPattern && hasWildcard rightPattern then
    leftPrefix.isPrefixOf rightPrefix || rightPrefix.isPrefixOf leftPrefix
  else if hasWildcard leftPattern then leftPrefix.isPrefixOf rightPattern
  else rightPrefix.isPrefixOf leftPattern

/-! ## Rules -/

inductive Action where
  | allow | ask | deny
  deriving DecidableEq, Repr

def Action.name : Action → String
  | .allow => "allow"
  | .ask => "ask"
  | .deny => "deny"

/-- An attribute set, sorted by name. -/
abbrev Rules := List (String × Action)

def assign (name : String) (action : Action) : Rules → Rules
  | [] => [(name,action)]
  | (n,a)::rules =>
    if name = n then (name,action)::rules
    else if name < n then (name,action)::(n,a)::rules
    else (n,a) :: assign name action rules

def addRule (rules : Rules) (name : String) (action : Action) : Except String Rules :=
  match rules.lookup name with
  | some old =>
    if old = action then .ok rules
    else .error ("agent-safety: conflicting actions for `" ++ name ++ "` (" ++ old.name ++ " vs " ++
      action.name ++ ")")
  | none => .ok (assign name action rules)

structure Wrappers where
  environmentAssignments : Bool := true
  nixStorePaths : Bool := true
  resultBinPaths : Bool := true

/-- `"*"`, or patterns relative to an executable. -/
inductive Commands where
  | all
  | listed (patterns : List String)

structure AutoSafe where
  commands : Commands
  executables : List String := []
  wrappers : Wrappers := {}

def commandPatterns : Commands → List String
  | .all => ["*"]
  | .listed patterns => patterns

def executableNames (name : String) (value : AutoSafe) : List String :=
  if value.executables = [] then [name] else value.executables

/-- All arguments, or none. -/
def commandVariants (command : String) : List (Option String) :=
  if command = "*" then [none,some "*"] else [some command]

def mkCommand (executable : String) : Option String → String
  | none => executable
  | some command => executable ++ " " ++ command

def mkPathCommand (pathPrefix executable : String) (command : Option String) : String :=
  pathPrefix ++ "/" ++ executable ++ (command.elim "" (" " ++ ·))

/-- The patterns of a program, in the order of their rules. -/
def renderProgram (name : String) (value : AutoSafe) : List String :=
  let executables := executableNames name value
  let commands := (commandPatterns value.commands).flatMap commandVariants
  let commandRules := executables.flatMap fun executable => commands.map (mkCommand executable)
  let paths := fun path => executables.flatMap fun executable =>
    commands.map (mkPathCommand path executable)
  let storeRules := if value.wrappers.nixStorePaths then paths "/nix/store/*/bin" else []
  let resultRules := if value.wrappers.resultBinPaths then paths "./result/bin" else []
  let envRules := if value.wrappers.environmentAssignments then
    (commandRules ++ storeRules ++ resultRules).map ("*=* " ++ ·) else []
  commandRules ++ envRules ++ storeRules ++ resultRules

def addRules (action : Action) (patterns : List String) (rules : Rules) : Except String Rules :=
  patterns.foldlM (fun rules pattern => addRule rules pattern action) rules

/-- The rules of all programs that declare some. -/
def renderPrograms (programs : List (String × Option AutoSafe)) : Except String Rules :=
  programs.foldlM (fun rules program =>
    match program.2 with
    | none => .ok rules
    | some value => addRules .allow (renderProgram program.1 value) rules) []

structure Policy where
  allow : List String := []
  ask : List String := []
  deny : List String := []

def renderActionRules (policy : Policy) : Except String Rules := do
  let rules ← addRules .allow policy.allow []
  let rules ← addRules .ask policy.ask rules
  addRules .deny policy.deny rules

/-- The second attribute set over the first. -/
def update (rules later : Rules) : Rules :=
  later.foldl (fun rules rule => assign rule.1 rule.2 rules) rules

def conflicts (programRules : Rules) (deny : List String) : List String :=
  (programRules.map Prod.fst).filter fun programPattern =>
    deny.any (patternsMayOverlap programPattern)

def mergeRules (defaultAction : Action) (programs : List (String × Option AutoSafe))
    (policy : Policy) : Except String Rules := do
  let programRules ← renderPrograms programs
  require (conflicts programRules policy.deny = [])
    ("agent-safety: autoSafe cannot override deny rule(s): " ++
      ", ".intercalate (conflicts programRules policy.deny))
  let policyRules ← renderActionRules policy
  .ok (update (update [("*",defaultAction)] programRules) policyRules)

/-! ## The backend's patterns -/

def token (c : Char) : Token Char := if c = '*' then .any else if c = '?' then .one else .lit c

/-- A pattern, and what it is without the argument of a trailing ` *`. -/
def readings (pattern : List Char) : List (List Char) :=
  pattern :: (Delimited.stripSuffix [' ','*'] pattern).toList

def Matched (pattern command : String) : Prop :=
  ∃ reading ∈ readings pattern.toList, Matches (reading.map token) command.toList

instance (pattern command : String) : Decidable (Matched pattern command) :=
  inferInstanceAs (Decidable (∃ _ ∈ _, _))

/-- Readings of the patterns that can be laid over each other. -/
def Meet (left right : String) : Prop :=
  ∃ l ∈ readings left.toList, ∃ r ∈ readings right.toList, Aligned (l.map token) (r.map token)

/-- Texts that differ at a position that both have. -/
def Clash (u v : List Char) : Prop :=
  ∃ w a b x y, u = w ++ a::x ∧ v = w ++ b::y ∧ a ≠ b

/-- What is left of the patterns without their environment prefixes is told apart. -/
def Separate (left right : String) : Prop :=
  let l := stripEnvironmentPrefix left.toList
  let r := stripEnvironmentPrefix right.toList
  match hasWildcard l, hasWildcard r with
  | false, false => l ≠ r
  | true, true => Clash (patternPrefix l) (patternPrefix r)
  | true, false => ¬ patternPrefix l <+: r
  | false, true => ¬ patternPrefix r <+: l

/-- The pattern begins with an environment prefix. -/
def Prefixed (pattern : String) : Prop :=
  stripEnvironmentPrefix pattern.toList ≠ pattern.toList

/-- Pairs that overlap unnoticed: a `?` in front of the first `*` stands for the other's
character; a pattern without `*` is that of the other without its optional argument; or an
environment prefix was taken off that reaches further into the other pattern. -/
inductive Overlooked (left right : String) : Prop
  | character : ¬ Prefixed left → ¬ Prefixed right → Meet left right →
      Clash (literal left.toList) (literal right.toList) → Overlooked left right
  | argumentLeft : ¬ Prefixed left → '*' ∉ right.toList → left.toList = right.toList ++ [' ','*'] →
      Overlooked left right
  | argumentRight : ¬ Prefixed right → '*' ∉ left.toList → right.toList = left.toList ++ [' ','*'] →
      Overlooked left right
  | environment : Prefixed left ∨ Prefixed right → Meet left right → Separate left right →
      Overlooked left right

theorem meet_iff {left right : String} :
    Meet left right ↔ ∃ command, Matched left command ∧ Matched right command := by
  constructor
  · rintro ⟨l,hl,r,hr,h⟩
    obtain ⟨s,hls,hrs⟩ := aligned_iff.mp h
    exact ⟨String.ofList s,⟨l,hl,by simpa using hls⟩,⟨r,hr,by simpa using hrs⟩⟩
  · rintro ⟨command,⟨l,hl,hls⟩,⟨r,hr,hrs⟩⟩
    exact ⟨l,hl,r,hr,aligned_iff.mpr ⟨_,hls,hrs⟩⟩

/-- Texts are compared as far as both go. -/
theorem clash_or (u v : List Char) : Clash u v ∨ u <+: v ∨ v <+: u := by
  induction u generalizing v with
  | nil => exact .inr (.inl (List.nil_prefix))
  | cons a u ih =>
    cases v with
    | nil => exact .inr (.inr (List.nil_prefix))
    | cons b v =>
      by_cases hab : a = b
      · subst hab
        rcases ih v with ⟨w,c,d,x,y,rfl,rfl,hne⟩ | h | h
        · exact .inl ⟨a::w,c,d,x,y,rfl,rfl,hne⟩
        · exact .inr (.inl (List.cons_prefix_cons.mpr ⟨rfl,h⟩))
        · exact .inr (.inr (List.cons_prefix_cons.mpr ⟨rfl,h⟩))
      · exact .inl ⟨[],a,b,u,v,rfl,rfl,hab⟩

theorem Clash.not_prefix {u v : List Char} (h : Clash u v) : ¬ u <+: v := by
  obtain ⟨w,a,b,x,y,rfl,rfl,hne⟩ := h
  rw [List.prefix_append_right_inj]
  exact fun hin => hne (List.cons_prefix_cons.mp hin).1

theorem Clash.symm {u v : List Char} (h : Clash u v) : Clash v u := by
  obtain ⟨w,a,b,x,y,hu,hv,hne⟩ := h
  exact ⟨w,b,a,y,x,hv,hu,hne.symm⟩

theorem clash_iff {u v : List Char} : Clash u v ↔ ¬ u <+: v ∧ ¬ v <+: u :=
  ⟨fun h => ⟨h.not_prefix,h.symm.not_prefix⟩,fun h => (clash_or u v).resolve_right (by tauto)⟩

theorem separate_iff {left right : String} :
    Separate left right ↔ patternsMayOverlap left right = false := by
  unfold Separate patternsMayOverlap
  cases hl : hasWildcard (stripEnvironmentPrefix left.toList) <;>
    cases hr : hasWildcard (stripEnvironmentPrefix right.toList) <;>
    simp [hl,hr,clash_iff,← Bool.not_eq_true]

/-! ## Patterns without an environment prefix -/

theorem token_any {c : Char} : token c = .any ↔ c = '*' := by
  unfold token
  split_ifs <;> simp_all

theorem any_mem {p : List Char} : Token.any ∈ p.map token ↔ '*' ∈ p := by
  simp [token_any]

theorem literal_starless (p : List Char) : '*' ∉ literal p := by
  intro h
  simpa using List.mem_takeWhile_imp h

theorem literal_eq {p : List Char} (h : '*' ∉ p) : literal p = p := by
  refine List.takeWhile_eq_self_iff.mpr fun c hc => ?_
  have hne : c ≠ '*' := fun heq => h (heq ▸ hc)
  simpa using hne

theorem literal_append {p : List Char} (h : '*' ∈ p) (r : List Char) :
    literal (p ++ r) = literal p := by
  induction p with
  | nil => cases h
  | cons c p ih =>
    by_cases hc : c = '*'
    · simp [literal,hc]
    · have hin : '*' ∈ p := (List.mem_cons.mp h).resolve_left fun heq => hc heq.symm
      simpa [literal,hc] using ih hin

theorem matches_starless {p s : List Char} (h : Matches (p.map token) s) (hp : '*' ∉ p) :
    p.length = s.length := by
  simpa using h.length_eq (mt any_mem.mp hp)

theorem matches_literal {p s : List Char} (h : Matches (p.map token) s) :
    (literal p).length ≤ s.length := by
  rw [← List.takeWhile_append_dropWhile (p := (· ≠ '*')) (l := p),List.map_append] at h
  simpa [literal] using h.length_le (mt any_mem.mp (literal_starless p))

theorem mem_readings {p reading : List Char} :
    reading ∈ readings p ↔ reading = p ∨ p = reading ++ [' ','*'] := by
  unfold readings
  rw [List.mem_cons,Option.mem_toList]
  refine or_congr_right ⟨Delimited.stripSuffix_some,?_⟩
  rintro rfl
  exact Delimited.stripSuffix_append _ _

theorem reading_length {p reading command : List Char} (h : reading ∈ readings p)
    (hm : Matches (reading.map token) command) (hp : '*' ∉ p) : p.length = command.length := by
  rcases mem_readings.mp h with rfl | rfl
  · exact matches_starless hm hp
  · simp at hp

theorem literal_optional {p : List Char} (h : '*' ∉ p) :
    literal (p ++ [' ','*']) = p ++ [' '] := by
  have hsplit : p ++ [' ','*'] = (p ++ [' ']) ++ ['*'] := by simp
  rw [hsplit,literal,List.takeWhile_append_of_pos]
  · simp
  · intro c hc
    have hne : c ≠ '*' := by
      rintro rfl
      simp [h] at hc
    simpa using hne

/-- A literal head that a pattern without `*` ends short of is its text and the blank before an
optional argument. -/
theorem optional_argument {l r : List Char} {reading command : List Char}
    (hreading : reading ∈ readings l) (hl : Matches (reading.map token) command)
    (hlength : r.length = command.length) (hpre : r <+: literal l) (hne : ¬ literal l <+: r) :
    l = r ++ [' ','*'] := by
  have hlt : r.length < (literal l).length := by
    refine lt_of_le_of_ne hpre.length_le fun heq => hne ?_
    rw [hpre.eq_of_length heq]
  rcases mem_readings.mp hreading with rfl | rfl
  · exact absurd (matches_literal hl) (by omega)
  · by_cases hstar : '*' ∈ reading
    · rw [literal_append hstar] at hlt
      exact absurd (matches_literal hl) (by omega)
    · have hq := matches_starless hl hstar
      rw [literal_optional hstar] at hpre
      have hsame : r <+: reading :=
        List.prefix_of_prefix_length_le hpre (List.prefix_append _ _) (by omega)
      rw [hsame.eq_of_length (by omega)]

theorem strip_starless {p : List Char} (h : '*' ∉ p) : stripEnvironmentPrefix p = p := by
  unfold stripEnvironmentPrefix
  split
  · simp at h
  · rfl

/-- Where there is no environment prefix, the patterns themselves are told apart. -/
theorem separate_unprefixed {left right : String} (hl : ¬ Prefixed left) (hr : ¬ Prefixed right) :
    Separate left right ↔
      match decide ('*' ∈ left.toList), decide ('*' ∈ right.toList) with
      | false, false => left.toList ≠ right.toList
      | true, true => Clash (literal left.toList) (literal right.toList)
      | true, false => ¬ literal left.toList <+: right.toList
      | false, true => ¬ literal right.toList <+: left.toList := by
  have hl : stripEnvironmentPrefix left.toList = left.toList := not_not.mp hl
  have hr : stripEnvironmentPrefix right.toList = right.toList := not_not.mp hr
  unfold Separate patternPrefix hasWildcard
  simp only [hl,hr]
  by_cases hls : '*' ∈ left.toList <;> by_cases hrs : '*' ∈ right.toList <;> simp [hls,hrs]

theorem clash_of_length {u v : List Char} (h : u.length = v.length) (hne : u ≠ v) : Clash u v :=
  clash_iff.mpr ⟨fun hp => hne (hp.eq_of_length h),fun hp => hne (hp.eq_of_length h.symm).symm⟩

theorem overlooked_unprefixed {left right : String} (hl : ¬ Prefixed left) (hr : ¬ Prefixed right)
    (hmeet : Meet left right) (hseparate : Separate left right) : Overlooked left right := by
  obtain ⟨command,⟨l,hlr,hlm⟩,⟨r,hrr,hrm⟩⟩ := meet_iff.mp hmeet
  rw [separate_unprefixed hl hr] at hseparate
  by_cases hclash : Clash (literal left.toList) (literal right.toList)
  · exact .character hl hr hmeet hclash
  · by_cases hls : '*' ∈ left.toList <;> by_cases hrs : '*' ∈ right.toList <;>
      simp only [hls,hrs,decide_true,decide_false] at hseparate
    · exact absurd hseparate hclash
    · -- the command is as long as the pattern without `*`
      have hlength := reading_length hrr hrm hrs
      rw [literal_eq hrs] at hclash
      have hpre := ((clash_or _ _).resolve_left hclash).resolve_left hseparate
      exact .argumentLeft hl hrs (optional_argument hlr hlm hlength hpre hseparate)
    · have hlength := reading_length hlr hlm hls
      rw [literal_eq hls] at hclash
      have hpre := ((clash_or _ _).resolve_left hclash).resolve_right hseparate
      exact .argumentRight hr hls (optional_argument hrr hrm hlength hpre hseparate)
    · rw [literal_eq hls,literal_eq hrs] at hclash
      have hlength := (reading_length hlr hlm hls).trans (reading_length hrr hrm hrs).symm
      exact absurd (clash_of_length hlength hseparate) hclash

theorem Clash.separate {left right : String} (hl : ¬ Prefixed left) (hr : ¬ Prefixed right)
    (h : Clash (literal left.toList) (literal right.toList)) : Separate left right := by
  rw [separate_unprefixed hl hr]
  by_cases hls : '*' ∈ left.toList <;> by_cases hrs : '*' ∈ right.toList <;>
    simp only [hls,hrs,decide_true,decide_false]
  · exact h
  · rw [literal_eq hrs] at h
    exact h.not_prefix
  · rw [literal_eq hls] at h
    exact h.symm.not_prefix
  · intro heq
    rw [heq] at h
    exact h.not_prefix (List.prefix_refl _)

theorem argument_separate {left right : String} (hl : ¬ Prefixed left) (hr : '*' ∉ right.toList)
    (h : left.toList = right.toList ++ [' ','*']) : Separate left right ∧ Separate right left := by
  have hright : ¬ Prefixed right := not_not.mpr (strip_starless hr)
  have hstar : '*' ∈ left.toList := by simp [h]
  have hnot : ¬ literal left.toList <+: right.toList := by
    intro hpre
    rw [h,literal_optional hr] at hpre
    have hle := hpre.length_le
    rw [List.length_append,List.length_singleton] at hle
    omega
  rw [separate_unprefixed hl hright,separate_unprefixed hright hl]
  simp only [hstar,hr,decide_true,decide_false]
  exact ⟨hnot,hnot⟩

theorem argument_meet {left right : String} (h : left.toList = right.toList ++ [' ','*']) :
    Meet left right ∧ Meet right left := by
  have hleft : right.toList ∈ readings left.toList := mem_readings.mpr (.inr h)
  have hright : right.toList ∈ readings right.toList := mem_readings.mpr (.inl rfl)
  exact ⟨⟨_,hleft,_,hright,.refl _⟩,⟨_,hright,_,hleft,.refl _⟩⟩

/-- The overlooked pairs are those that meet and are told apart all the same. -/
theorem overlooked_iff {left right : String} :
    Overlooked left right ↔ Meet left right ∧ patternsMayOverlap left right = false := by
  rw [← separate_iff]
  constructor
  · intro h
    cases h with
    | character hl hr hmeet hclash => exact ⟨hmeet,hclash.separate hl hr⟩
    | argumentLeft hl hr h => exact ⟨(argument_meet h).1,(argument_separate hl hr h).1⟩
    | argumentRight hr hl h => exact ⟨(argument_meet h).2,(argument_separate hr hl h).2⟩
    | environment _ hmeet hseparate => exact ⟨hmeet,hseparate⟩
  · rintro ⟨hmeet,hseparate⟩
    by_cases hp : Prefixed left ∨ Prefixed right
    · exact .environment hp hmeet hseparate
    · exact overlooked_unprefixed (fun h => hp (.inl h)) (fun h => hp (.inr h)) hmeet hseparate

/-! ## Soundness -/

theorem sound_iff {left right : String} :
    (∀ command, Matched left command → Matched right command → patternsMayOverlap left right) ↔
      ¬ Overlooked left right := by
  rw [overlooked_iff,meet_iff]
  constructor
  · rintro h ⟨⟨command,hl,hr⟩,hfalse⟩
    rw [h command hl hr] at hfalse
    cases hfalse
  · intro h command hl hr
    by_contra hfalse
    exact h ⟨⟨command,hl,hr⟩,by simpa using hfalse⟩

theorem mergeRules_ok {defaultAction : Action} {programs : List (String × Option AutoSafe)}
    {policy : Policy} {rules programRules : Rules}
    (h : mergeRules defaultAction programs policy = .ok rules)
    (hp : renderPrograms programs = .ok programRules) :
    ∀ p ∈ programRules.map Prod.fst, ∀ d ∈ policy.deny, patternsMayOverlap p d = false := by
  obtain ⟨programRules',hp',h⟩ := bind_ok h
  obtain rfl := Except.ok.inj (hp.symm.trans hp')
  obtain ⟨u,hnone,-⟩ := bind_ok h
  intro p hin d hd
  have hempty := List.filter_eq_nil_iff.mp (require_ok hnone) p hin
  by_contra hmay
  exact hempty (List.any_eq_true.mpr ⟨d,hd,by simpa using hmay⟩)

/-- Overlap is noticed for every pair that is not of the overlooked kinds; and the rules of a merge
that goes through are disjoint exactly when none of their pairs is. -/
theorem overlap_noticed_iff (left right : String) (defaultAction : Action)
    (programs : List (String × Option AutoSafe)) (policy : Policy) (rules programRules : Rules) :
    ((∀ command, Matched left command → Matched right command → patternsMayOverlap left right) ↔
      ¬ Overlooked left right) ∧
    (mergeRules defaultAction programs policy = .ok rules →
      renderPrograms programs = .ok programRules →
      ((∀ p ∈ programRules.map Prod.fst, ∀ d ∈ policy.deny, ∀ command,
          ¬ (Matched p command ∧ Matched d command)) ↔
        ∀ p ∈ programRules.map Prod.fst, ∀ d ∈ policy.deny, ¬ Overlooked p d)) := by
  refine ⟨sound_iff,?_⟩
  intro h hp
  refine forall₂_congr fun p hin => forall₂_congr fun d hd => ?_
  have hfalse := mergeRules_ok h hp p hin d hd
  rw [overlooked_iff,meet_iff,← not_exists]
  exact not_congr ⟨fun h => ⟨h,hfalse⟩,And.left⟩

/-- A program allowed without arguments, and a rule of another one. -/
def statusOnly : List (String × Option AutoSafe) :=
  [("git",some ⟨.listed ["status"],[],⟨false,false,false⟩⟩)]

theorem statusOnly_disjoint (command : String) :
    ¬ (Matched "git status" command ∧ Matched "rm *" command) := by
  have hpatterns : renderPrograms statusOnly = .ok [("git status",.allow)] := by decide +kernel
  have hmerged : mergeRules .ask statusOnly ⟨[],[],["rm *"]⟩ =
      .ok [("*",.ask),("git status",.allow),("rm *",.deny)] := by decide +kernel
  refine (((overlap_noticed_iff "git status" "rm *" _ _ _ _ _).2 hmerged hpatterns).mpr ?_)
    "git status" (by simp) "rm *" (by simp) command
  intro p hp d hd h
  obtain rfl : p = "git status" := by simpa using hp
  obtain rfl : d = "rm *" := by simpa using hd
  obtain ⟨l,hl,r,hr,haligned⟩ := (overlooked_iff.mp h).1
  have hgit : ∀ l ∈ readings "git status".toList, (l.map token).head? = some (.lit 'g') := by decide
  have hrm : ∀ r ∈ readings "rm *".toList, (r.map token).head? = some (.lit 'r') := by decide
  obtain ⟨p,hp⟩ := List.head?_eq_some_iff.mp (hgit l hl)
  obtain ⟨q,hq⟩ := List.head?_eq_some_iff.mp (hrm r hr)
  rw [hp,hq] at haligned
  exact absurd haligned.head_eq (by decide)

/-- A program allowed with any arguments, in each of its spellings. -/
def statusAny : List (String × Option AutoSafe) := [("git",some ⟨.listed ["status *"],[],{}⟩)]

def statusAnyRules : Rules :=
  [("*=* ./result/bin/git status *",.allow),("*=* /nix/store/*/bin/git status *",.allow),
    ("*=* git status *",.allow),("./result/bin/git status *",.allow),
    ("/nix/store/*/bin/git status *",.allow),("git status *",.allow)]

/-- Three pairs with a command in common: a character, an optional argument and an assignment.
A merge with the rule of the second pair goes through. -/
theorem overlap_missed :
    (patternsMayOverlap "git ?" "git x" = false ∧ Matched "git ?" "git x" ∧
      Matched "git x" "git x") ∧
    (patternsMayOverlap "git status *" "git status" = false ∧ Matched "git status *" "git status" ∧
      Matched "git status" "git status") ∧
    (patternsMayOverlap "git status *" "*=* rm *" = false ∧
      Matched "git status *" "git status A=b rm x" ∧ Matched "*=* rm *" "git status A=b rm x") ∧
    renderPrograms statusAny = .ok statusAnyRules ∧
      mergeRules .ask statusAny ⟨[],[],["git status"]⟩ =
        .ok (update (("*",.ask)::statusAnyRules) [("git status",.deny)]) := by
  refine ⟨by decide +kernel,by decide +kernel,by decide +kernel,by decide +kernel,by decide +kernel⟩

end AgentSafety
end CanixToolbelt
