import CanixToolbelt.AgentSafety
import CanixToolbelt.JsonText
import CanixToolbelt.Words

/-! Rendering of command rules for Codex, whose rules are prefixes of an argument vector. Patterns
are cut to the literal words that they begin with. -/
namespace CanixToolbelt
namespace CodexRules
open AgentSafety Glob Words

/-! ## Analysis of a pattern -/

/-- `[[:space:]]`. -/
def space (c : Char) : Bool := c = ' ' || (9 ≤ c.toNat && c.toNat ≤ 13)

/-- What ends a literal word: quotes, escapes, expansions and operators. -/
def special : List Char := "][*?'\"\\$`\x7b\x7d~|&;<>()".toList

def isAssignment : List Char → Bool
  | [] => false
  | c::token => (c.isAlpha || c = '_') &&
    (token.dropWhile fun c => c.isAlphanum || c = '_').head? = some '='

def isLiteral (token : List Char) : Bool := token.all fun c => c ∉ special

/-- The text before the first `#` that follows white space. -/
def uncomment : List Char → List Char
  | [] => []
  | c::cs => if space c && cs.head? = some '#' then [] else c :: uncomment cs

/-- The pattern without its comment. -/
def command (pattern : List Char) : List Char :=
  if pattern.head? = some '#' then [] else uncomment pattern

def tokens (pattern : String) : List (List Char) := words space (command pattern.toList)

structure Entry where
  literal : List (List Char)
  trailing : Bool
  assigned : Bool
  empty : Bool
  exact : Bool

def analyse (pattern : String) : Entry :=
  let tokens := tokens pattern
  let trailing : Bool := tokens.getLast? = some ['*']
  let body := if trailing then tokens.dropLast else tokens
  -- a leading `NAME=value` is never a word of the vector
  let assigned := tokens.head?.any isAssignment
  let literal := if assigned then [] else body.takeWhile isLiteral
  ⟨literal,trailing,assigned,tokens = [],literal = body⟩

/-! ## Decisions -/

inductive Decision where
  | allow | prompt | forbidden
  deriving DecidableEq, Repr

def Decision.name : Decision → String
  | .allow => "allow"
  | .prompt => "prompt"
  | .forbidden => "forbidden"

def decisions : Action → Decision
  | .allow => .allow
  | .ask => .prompt
  | .deny => .forbidden

/-- The refinements that are rendered. -/
def lenient (rules : Rules) : List Entry :=
  rules.filterMap fun rule =>
    let entry := analyse rule.1
    if rule.1 ≠ "*" ∧ entry.literal ≠ [] ∧
        (rule.2 = .ask ∨ rule.2 = .allow ∧ entry.exact ∧ entry.trailing) then some entry
    else none

def refined (rules : Rules) (literal : List (List Char)) (trailing : Bool) : Bool :=
  (lenient rules).any fun other =>
    other.literal.take literal.length = literal &&
      (literal.length < other.literal.length ||
        (other.literal.length = literal.length &&
          (!other.exact || (!trailing && other.trailing))))

def decision (rules : Rules) (action : Action) (entry : Entry) : Option Decision :=
  if action = .allow then if entry.exact && entry.trailing then some .allow else none
  else if entry.exact && !(action = .deny && refined rules entry.literal entry.trailing) then
    some (decisions action)
  else some .prompt

def strictness : Action → ℕ
  | .allow => 0
  | .ask => 1
  | .deny => 2

/-- A wrapper's pattern for the command itself. -/
def unwrapped (pattern : String) : String :=
  let stripped := stripEnvironmentPrefix pattern.toList
  String.ofList ((Delimited.stripPrefix "/nix/store/*/bin/".toList stripped).getD stripped)

def bareAction (rules : Rules) (unwrapped : String) : Action :=
  ((rules.lookup unwrapped).orElse fun _ => rules.lookup "*").getD .allow

def coveredWrapper (rules : Rules) (pattern : String) (action : Action) : Bool :=
  unwrapped pattern ≠ pattern &&
    strictness action ≤ strictness (bareAction rules (unwrapped pattern))

/-! ## Results -/

structure Rule where
  decision : Decision
  tokens : List String

inductive Result where
  | rule (rule : Rule)
  | unrepresentable (text : String)

def render (rules : Rules) (pattern : String) (action : Action) : Option Result :=
  let entry := analyse pattern
  match decision rules action entry with
  | none => none
  | some decision =>
    if pattern = "*" ∨ entry.empty then none
    else if entry.literal ≠ [] then some (.rule ⟨decision,entry.literal.map String.ofList⟩)
    else if coveredWrapper rules pattern action then none
    else some (.unrepresentable (action.name ++ " " ++ pattern))

def results (rules : Rules) : List Result :=
  rules.filterMap fun rule => render rules rule.1 rule.2

def Result.rule? : Result → Option Rule
  | .rule r => some r
  | .unrepresentable _ => none

def Result.unrepresentable? : Result → Option String
  | .rule _ => none
  | .unrepresentable text => some text

def rendered (rules : Rules) : List Rule := (results rules).filterMap Result.rule?

def unrepresentable (rules : Rules) : List String :=
  (results rules).filterMap Result.unrepresentable?

/-- Some rule but the catch-all does not allow. -/
def guarded (rules : Rules) : Bool := rules.any fun rule => rule.1 ≠ "*" && rule.2 ≠ .allow

/-! ## Text -/

def toJSON (s : String) : String := String.ofList (Json.renderString s)

def quote (words : List String) : String := ", ".intercalate (words.map toJSON)

def prefixRule (rule : Rule) : String :=
  "prefix_rule(pattern=[" ++ quote rule.tokens ++ "], decision=" ++ toJSON rule.decision.name ++ ")"

def shellPrompt : String :=
  "prefix_rule(pattern=[[\"bash\", \"sh\", \"zsh\"], [\"-c\", \"-lc\"]], decision=\"prompt\")"

/-- The names of programs that some rule allows. -/
def bareNames (rules : Rules) : List String :=
  (((rendered rules).filter fun rule => rule.decision = .allow).filterMap fun rule =>
    rule.tokens.head?.filter fun name => '/' ∉ name.toList).eraseDups

def hostExecutable (executableDirs : List String) (name : String) : String :=
  "host_executable(name=" ++ toJSON name ++ ", paths=[" ++
    quote (executableDirs.map fun dir => dir ++ "/" ++ name) ++ "])"

def sorted (texts : List String) : List String := texts.mergeSort fun a b => a ≤ b

def note (entry : String) : String :=
  "#   " ++ String.ofList (entry.toList.map fun c => if c = '\n' then ' ' else c)

def notes (rules : Rules) : List String :=
  (if unrepresentable rules ≠ [] then ["# Not representable as Codex execpolicy rules:"] else []) ++
    (sorted (unrepresentable rules)).map note

def outputLines (rules : Rules) (executableDirs : List String) : List String :=
  (sorted ((rendered rules).map prefixRule ++
    (bareNames rules).map (hostExecutable executableDirs))).eraseDups ++
    (if guarded rules then [shellPrompt] else []) ++ notes rules

def renderCodexRules (rules : Rules) (executableDirs : List String) : String :=
  String.join ((outputLines rules executableDirs).map (· ++ "\n"))

/-! ## Codex -/

/-- A rule of Codex: alternatives for each of the first words. -/
structure PrefixRule where
  pattern : List (List String)
  decision : Decision

/-- The vector begins with words of the pattern. -/
def covers : List (List String) → List String → Bool
  | [], _ => true
  | _::_, [] => false
  | words::pattern, word::argv => word ∈ words && covers pattern argv

/-- The rules that the text states. -/
def codexRules (rules : Rules) : List PrefixRule :=
  (rendered rules).map (fun rule => ⟨rule.tokens.map fun token => [token],rule.decision⟩) ++
    if guarded rules then [⟨[["bash","sh","zsh"],["-c","-lc"]],.prompt⟩] else []

/-- The strictest of the rules that match. -/
def verdict (rules : List PrefixRule) (argv : List String) : Option Decision :=
  let matching := (rules.filter fun rule => covers rule.pattern argv).map PrefixRule.decision
  if .forbidden ∈ matching then some .forbidden
  else if .prompt ∈ matching then some .prompt
  else if .allow ∈ matching then some .allow
  else none

end CodexRules
end CanixToolbelt
