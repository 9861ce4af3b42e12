import CanixToolbelt.CodexRules
import CanixToolbelt.FileTree
import CanixToolbelt.Mounts

/-! The rules rendered for Codex allow no more than the patterns that they come from. -/
namespace CanixToolbelt
namespace CodexRules
open AgentSafety Glob Words

/-- A word between blanks. -/
def Word (w : String) : Prop := w ≠ "" ∧ ∀ c ∈ w.toList, space c = false

/-- The vector as the text that patterns are matched with. -/
def commandLine (argv : List String) : String := " ".intercalate argv

/-- Words that stand for themselves, and then anything. -/
def AllowsPrefix (pattern : String) (argv : List String) : Prop :=
  ∃ literal : List String, literal ≠ [] ∧
    (∀ w ∈ literal, Word w ∧ isLiteral w.toList ∧ w.toList.head? ≠ some '#') ∧
    tokens pattern = literal.map String.toList ++ [['*']] ∧
    Matched (commandLine (literal ++ ["*"])) (commandLine argv)

/-- What a wrapper calls has a rule that is at least as strict, or none, and the catch-all is. -/
def Covered (rules : Rules) (pattern : String) (action : Action) : Prop :=
  unwrapped pattern ≠ pattern ∧ ∃ bare,
    (rules.lookup (unwrapped pattern) = some bare ∨
      rules.lookup (unwrapped pattern) = none ∧ rules.lookup "*" = some bare) ∧
    strictness action ≤ strictness bare

/-! ## Words of a pattern -/

theorem commandLine_toList (argv : List String) :
    (commandLine argv).toList = [' '].intercalate (argv.map String.toList) := by
  simp [commandLine,String.toList_intercalate]

theorem commandLine_words {argv : List String} (h : ∀ w ∈ argv, Word w) :
    words space (commandLine argv).toList = argv.map String.toList := by
  rw [commandLine_toList]
  refine words_intercalate (by decide) fun w hw => ?_
  obtain ⟨v,hv,rfl⟩ := List.mem_map.mp hw
  exact ⟨by simpa using (h v hv).1,(h v hv).2⟩

theorem uncomment_split (cs : List Char) : ∃ rest, cs = uncomment cs ++ rest ∧ Ends space rest := by
  induction cs with
  | nil => exact ⟨[],rfl,.nil⟩
  | cons c cs ih =>
    by_cases h : space c ∧ cs.head? = some '#'
    · exact ⟨c::cs,by simp [uncomment,h],Ends.cons.mpr h.1⟩
    · obtain ⟨rest,hrest,hends⟩ := ih
      have hcons : uncomment (c::cs) = c :: uncomment cs := by
        rw [uncomment,if_neg (by simpa using h)]
      exact ⟨rest,by rw [hcons,List.cons_append,← hrest],hends⟩

/-- A blank that is kept is not followed by a `#`. -/
theorem uncomment_chain (cs : List Char) :
    (uncomment cs).IsChain fun a b => ¬ (space a ∧ b = '#') := by
  induction cs with
  | nil => exact .nil
  | cons c cs ih =>
    unfold uncomment
    split
    · exact .nil
    · rename_i h
      refine List.isChain_cons.mpr ⟨fun b hb hin => ?_,ih⟩
      obtain ⟨rest,hrest,-⟩ := uncomment_split cs
      have hhead : cs.head? = some b := by
        rw [hrest,List.head?_append,Option.mem_def.mp hb,Option.some_or]
      simp [hin.1,hhead,hin.2] at h

theorem command_eq {pattern : List Char} (h : pattern.head? ≠ some '#') :
    command pattern = uncomment pattern := if_neg h

/-- Blanks, or the start, in front of no `#`: no word begins with one. -/
theorem word_head {s : List Char} (hstart : s.head? ≠ some '#')
    (hchain : s.IsChain fun a b => ¬ (space a ∧ b = '#')) :
    ∀ w ∈ words space s, w.head? ≠ some '#' := by
  induction s using induct (p := space) with
  | nil => simp
  | blank c s hc ih =>
    rw [words_blank hc]
    rw [List.isChain_cons] at hchain
    exact ih (fun heq => hchain.1 '#' heq ⟨hc,rfl⟩) hchain.2
  | word v r hne hv hr ih =>
    rw [words_word hne hv hr]
    intro w h
    rcases List.mem_cons.mp h with rfl | h
    · rwa [List.head?_append_of_ne_nil _ hne] at hstart
    · exact ih (fun heq => absurd (hr '#' heq) (by decide)) (List.isChain_append.mp hchain).2.1 w h

/-- No word of a pattern begins a comment. -/
theorem token_head {pattern : String} {w : List Char} (h : w ∈ tokens pattern) :
    w.head? ≠ some '#' := by
  unfold tokens at h
  by_cases hhead : pattern.toList.head? = some '#'
  · rw [command,if_pos hhead,words_nil] at h
    cases h
  · rw [command_eq hhead] at h
    refine word_head (fun heq => hhead ?_) (uncomment_chain _) w h
    obtain ⟨rest,hrest,-⟩ := uncomment_split pattern.toList
    rw [hrest,List.head?_append,heq,Option.some_or]

/-- A pattern that begins with words is a text that ends with the last of them, and more. -/
theorem pattern_split {pattern : String} {xs ys : List (List Char)} (hne : xs ≠ [])
    (h : tokens pattern = xs ++ ys) :
    ∃ a r, pattern.toList = a ++ r ∧ words space a = xs ∧ Ends space r ∧
      ∃ b c, a = b ++ [c] ∧ space c = false := by
  have hhead : pattern.toList.head? ≠ some '#' := by
    intro heq
    rw [tokens,command,if_pos heq,words_nil] at h
    exact hne (List.append_eq_nil_iff.mp h.symm).1
  rw [tokens,command_eq hhead] at h
  obtain ⟨a,r,ha,hwords,hr,hlast⟩ := words_split hne h
  obtain ⟨rest,hrest,hends⟩ := uncomment_split pattern.toList
  refine ⟨a,r ++ rest,by rw [hrest,ha,List.append_assoc],hwords,?_,hlast⟩
  cases r with
  | nil => exact hends
  | cons c r => exact Ends.cons.mpr (Ends.cons.mp hr)

/-- Both readings of a pattern begin with its leading words, if none of them has a `*`. -/
theorem reading_split {p a r reading : List Char} (hreading : reading ∈ readings p)
    (hp : p = a ++ r) (hr : Ends space r) (hstar : '*' ∉ a)
    (hlast : ∃ b c, a = b ++ [c] ∧ space c = false) :
    ∃ r', reading = a ++ r' ∧ Ends space r' := by
  rcases mem_readings.mp hreading with rfl | heq
  · exact ⟨r,hp,hr⟩
  · rw [hp] at heq
    rcases List.append_eq_append_iff.mp heq with ⟨t,rfl,ht⟩ | ⟨t,ha,ht⟩
    · refine ⟨t,rfl,?_⟩
      cases t with
      | nil => exact .nil
      | cons c t =>
        rw [ht] at hr
        exact Ends.cons.mpr (Ends.cons.mp hr)
    · -- the optional argument reaches into the words
      obtain ⟨b,c,hb,hc⟩ := hlast
      match t with
      | [] => exact ⟨[],by rw [ha,List.append_nil,List.append_nil],.nil⟩
      | [d] =>
        obtain rfl : ' ' = d := (List.cons.inj ht).1
        have hend := ha.symm.trans hb
        obtain rfl : ' ' = c := (List.append_singleton_inj.mp hend).2
        cases hc
      | d::e::t =>
        obtain ⟨-,ht⟩ := List.cons.inj ht
        obtain ⟨he,-⟩ := List.cons.inj ht
        rw [ha,← he] at hstar
        simp at hstar

theorem special_star : '*' ∈ special := by decide

theorem special_question : '?' ∈ special := by decide

theorem literal_free {token : List Char} {c : Char} (h : isLiteral token) (hc : c ∈ special) :
    c ∉ token := by
  intro hin
  simpa [hc] using List.all_eq_true.mp h c hin

theorem plain_tokens {a : List Char} (hstar : '*' ∉ a) (hquestion : '?' ∉ a) :
    a.map token = a.map .lit := by
  refine List.map_congr_left fun c hc => ?_
  have hs : c ≠ '*' := fun heq => hstar (heq ▸ hc)
  have hq : c ≠ '?' := fun heq => hquestion (heq ▸ hc)
  rw [token,if_neg hs,if_neg hq]

theorem token_blank {c : Char} (h : space c) : token c = .lit c := by
  have hs : c ≠ '*' := by
    rintro rfl
    cases h
  have hq : c ≠ '?' := by
    rintro rfl
    cases h
  rw [token,if_neg hs,if_neg hq]

/-- Nothing special stands in a text whose words are literal. -/
theorem notMem_words {a : List Char} (h : ∀ w ∈ words space a, isLiteral w) {c : Char}
    (hc : c ∈ special) (hspace : space c = false) : c ∉ a := by
  intro hin
  obtain ⟨w,hw,hcw⟩ := mem_word hspace hin
  exact literal_free (h w hw) hc hcw

/-- A command that a pattern matches begins with the pattern's leading literal words. -/
theorem matched_leads {pattern : String} {argv : List String} {xs ys : List (List Char)}
    (h : Matched pattern (commandLine argv)) (hargv : ∀ w ∈ argv, Word w) (hne : xs ≠ [])
    (hliteral : ∀ w ∈ xs, isLiteral w) (htokens : tokens pattern = xs ++ ys) :
    xs <+: argv.map String.toList := by
  obtain ⟨a,r,hsplit,rfl,hr,hlast⟩ := pattern_split hne htokens
  obtain ⟨reading,hreading,hmatch⟩ := h
  have hstar := notMem_words hliteral special_star rfl
  have hquestion := notMem_words hliteral special_question rfl
  obtain ⟨r',rfl,hr'⟩ := reading_split hreading hsplit hr hstar hlast
  rw [List.map_append,plain_tokens hstar hquestion] at hmatch
  obtain ⟨t,ht,hrest⟩ := matches_lits.mp hmatch
  have hends : Ends space t := by
    cases r' with
    | nil =>
      cases hrest
      exact .nil
    | cons c r' =>
      have hc := Ends.cons.mp hr'
      rw [List.map_cons,token_blank hc] at hrest
      cases hrest
      exact Ends.cons.mpr hc
  rw [← commandLine_words hargv,ht,words_append hends]
  exact List.prefix_append _ _

/-! ## What is rendered -/

theorem body_leads (pattern : String) :
    (if (tokens pattern).getLast? = some ['*'] then (tokens pattern).dropLast else tokens pattern) <+:
      tokens pattern := by
  split
  · exact List.dropLast_prefix _
  · exact List.prefix_refl _

/-- The literal words are leading words of the pattern. -/
theorem literal_tokens (pattern : String) :
    (∃ ys, tokens pattern = (analyse pattern).literal ++ ys) ∧
      ∀ w ∈ (analyse pattern).literal, isLiteral w := by
  unfold analyse
  simp only [decide_eq_true_eq]
  split
  · exact ⟨⟨tokens pattern,rfl⟩,by simp⟩
  · refine ⟨?_,fun w hw => List.mem_takeWhile_imp hw⟩
    obtain ⟨ys,hys⟩ := (List.takeWhile_prefix isLiteral).trans (body_leads pattern)
    exact ⟨ys,hys.symm⟩

/-- A pattern that is allowed as it stands is its literal words and a `*`. -/
theorem exact_tokens {pattern : String} (hexact : (analyse pattern).exact)
    (htrailing : (analyse pattern).trailing) :
    tokens pattern = (analyse pattern).literal ++ [['*']] := by
  simp only [analyse,decide_eq_true_eq] at hexact htrailing ⊢
  rw [hexact,if_pos htrailing]
  obtain ⟨init,hinit⟩ := List.getLast?_eq_some_iff.mp htrailing
  rw [hinit,List.dropLast_concat]

theorem empty_tokens {pattern : String} : (analyse pattern).empty ↔ tokens pattern = [] := by
  simp [analyse]

theorem decision_strict {rules : Rules} {action : Action} (entry : Entry) (h : action ≠ .allow) :
    ∃ d, d ≠ .allow ∧ decision rules action entry = some d := by
  unfold decision
  rw [if_neg h]
  split
  · refine ⟨_,?_,rfl⟩
    cases action <;> simp [decisions] at h ⊢
  · exact ⟨.prompt,by simp,rfl⟩

theorem decision_allow {rules : Rules} {action : Action} {entry : Entry}
    (h : decision rules action entry = some .allow) :
    action = .allow ∧ entry.exact ∧ entry.trailing := by
  by_cases haction : action = .allow
  · rw [decision,if_pos haction] at h
    split at h
    · rename_i hboth
      exact ⟨haction,by simpa using hboth⟩
    · cases h
  · obtain ⟨d,hd,heq⟩ := @decision_strict rules _ entry haction
    rw [heq] at h
    exact absurd (Option.some.inj h) hd

theorem mem_rendered {rules : Rules} {r : Rule} :
    r ∈ rendered rules ↔ ∃ pattern action, (pattern,action) ∈ rules ∧
      render rules pattern action = some (.rule r) := by
  simp only [rendered,results,List.mem_filterMap,Prod.exists]
  constructor
  · rintro ⟨result,⟨pattern,action,hin,hrender⟩,hr⟩
    cases result with
    | rule r' =>
      cases hr
      exact ⟨pattern,action,hin,hrender⟩
    | unrepresentable text => cases hr
  · rintro ⟨pattern,action,hin,hrender⟩
    exact ⟨_,⟨pattern,action,hin,hrender⟩,rfl⟩

theorem mem_unrepresentable {rules : Rules} {pattern : String} {action : Action} {text : String}
    (h : (pattern,action) ∈ rules)
    (hrender : render rules pattern action = some (.unrepresentable text)) :
    text ∈ unrepresentable rules :=
  List.mem_filterMap.mpr ⟨_,List.mem_filterMap.mpr ⟨_,h,hrender⟩,rfl⟩

/-- Which patterns become rules, and which ones. -/
theorem render_rule {rules : Rules} {pattern : String} {action : Action} {r : Rule} :
    render rules pattern action = some (.rule r) ↔
      decision rules action (analyse pattern) = some r.decision ∧ pattern ≠ "*" ∧
        (analyse pattern).literal ≠ [] ∧ r.tokens = (analyse pattern).literal.map String.ofList := by
  cases hd : decision rules action (analyse pattern) with
  | none => simp [render,hd]
  | some d =>
    by_cases hliteral : (analyse pattern).literal = []
    · have hnot : ¬ (analyse pattern).literal ≠ [] := not_not.mpr hliteral
      simp only [render,hd,hnot,if_false,false_and,and_false,iff_false]
      split_ifs <;> simp
    · have hnonempty : ¬ (analyse pattern).empty := by
        intro hempty
        obtain ⟨⟨ys,hys⟩,-⟩ := literal_tokens pattern
        rw [empty_tokens.mp hempty] at hys
        exact hliteral (List.append_eq_nil_iff.mp hys.symm).1
      by_cases hall : pattern = "*"
      · simp only [render,hd,if_pos (Or.inl hall : pattern = "*" ∨ (analyse pattern).empty)]
        simp [hall]
      · have hnot : ¬ (pattern = "*" ∨ (analyse pattern).empty) := by simp [hall,hnonempty]
        simp only [render,hd,if_neg hnot,if_pos hliteral,Option.some.injEq,Result.rule.injEq]
        constructor
        · rintro rfl
          exact ⟨rfl,hall,hliteral,rfl⟩
        · rintro ⟨rfl,-,-,htokens⟩
          rw [← htokens]

theorem covers_literal {tokens argv : List String} :
    covers (tokens.map fun token => [token]) argv ↔ tokens <+: argv := by
  induction tokens generalizing argv with
  | nil => simp [covers]
  | cons t ts ih =>
    cases argv with
    | nil => simp [covers]
    | cons w ws =>
      rw [List.map_cons,covers,Bool.and_eq_true,ih,List.cons_prefix_cons,decide_eq_true_eq,
        List.mem_singleton,eq_comm (a := w)]

theorem verdict_allow {rules : List PrefixRule} {argv : List String}
    (h : verdict rules argv = some .allow) :
    (∃ r ∈ rules, covers r.pattern argv ∧ r.decision = .allow) ∧
      ∀ r ∈ rules, covers r.pattern argv → r.decision = .allow := by
  unfold verdict at h
  dsimp only at h
  split_ifs at h with hforbidden hprompt hallow
  · cases h
  · cases h
  · simp only [List.mem_map,List.mem_filter] at hforbidden hprompt hallow
    obtain ⟨r,⟨hr,hcovers⟩,hdecision⟩ := hallow
    refine ⟨⟨r,hr,hcovers,hdecision⟩,fun r hr hcovers => ?_⟩
    cases hd : r.decision with
    | allow => rfl
    | prompt => exact absurd ⟨r,⟨hr,hcovers⟩,hd⟩ hprompt
    | forbidden => exact absurd ⟨r,⟨hr,hcovers⟩,hd⟩ hforbidden

/-! ## Soundness -/

theorem ofList_leads {xs : List (List Char)} {argv : List String} :
    xs.map String.ofList <+: argv ↔ xs <+: argv.map String.toList := by
  constructor
  · rintro ⟨rest,rfl⟩
    exact ⟨rest.map String.toList,by simp [Function.comp_def]⟩
  · rintro ⟨rest,hrest⟩
    refine ⟨rest.map String.ofList,?_⟩
    rw [← List.map_append,hrest]
    simp [Function.comp_def]

/-- A pattern with leading literal words has a rule that covers all that it matches. -/
theorem strict_covers {rules : Rules} {argv : List String} (hargv : ∀ w ∈ argv, Word w)
    {pattern : String} {action : Action} (h : (pattern,action) ∈ rules) (haction : action ≠ .allow)
    (hall : pattern ≠ "*") (hliteral : (analyse pattern).literal ≠ [])
    (hmatch : Matched pattern (commandLine argv)) :
    ∃ r ∈ codexRules rules, r.decision ≠ .allow ∧ covers r.pattern argv := by
  obtain ⟨d,hd,hdecision⟩ := @decision_strict rules _ (analyse pattern) haction
  obtain ⟨⟨ys,hys⟩,hplain⟩ := literal_tokens pattern
  let rule : Rule := ⟨d,(analyse pattern).literal.map String.ofList⟩
  have hrule : rule ∈ rendered rules :=
    mem_rendered.mpr ⟨pattern,action,h,render_rule.mpr ⟨hdecision,hall,hliteral,rfl⟩⟩
  refine ⟨_,List.mem_append_left _ (List.mem_map_of_mem hrule),hd,?_⟩
  exact covers_literal.mpr (ofList_leads.mpr (matched_leads hmatch hargv hliteral hplain hys))

theorem join_append (xs ys : List String) (hx : xs ≠ []) (hy : ys ≠ []) :
    (commandLine (xs ++ ys)).toList =
      (commandLine xs).toList ++ ' ' :: (commandLine ys).toList := by
  simp only [commandLine_toList,List.map_append]
  rw [FileTree.intercalate_append _ (by simpa using hx) (by simpa using hy)]
  rfl

theorem commandLine_free {ws : List String} (h : ∀ w ∈ ws, isLiteral w.toList) {c : Char}
    (hc : c ∈ special) (hspace : c ≠ ' ') : c ∉ (commandLine ws).toList := by
  rw [commandLine_toList]
  intro hin
  rcases Mounts.mem_intercalate hin with rfl | ⟨part,hpart,hmem⟩
  · exact hspace rfl
  · obtain ⟨w,hw,rfl⟩ := List.mem_map.mp hpart
    exact literal_free (h w hw) hc hmem

/-- Literal words and a `*` match the words alone and with anything after them. -/
theorem literal_matched {ws argv : List String} (hne : ws ≠ [])
    (h : ∀ w ∈ ws, isLiteral w.toList) (hpre : ws <+: argv) :
    Matched (commandLine (ws ++ ["*"])) (commandLine argv) := by
  obtain ⟨rest,rfl⟩ := hpre
  have hpattern : (commandLine (ws ++ ["*"])).toList = (commandLine ws).toList ++ [' ','*'] :=
    join_append ws ["*"] hne (by simp)
  have hplain := plain_tokens (commandLine_free h special_star (by decide))
    (commandLine_free h special_question (by decide))
  by_cases hrest : rest = []
  · subst hrest
    refine ⟨(commandLine ws).toList,mem_readings.mpr (.inr hpattern),?_⟩
    rw [hplain,List.append_nil]
    simpa using matches_lits.mpr ⟨[],(List.append_nil _).symm,.nil⟩
  · refine ⟨_,mem_readings.mpr (.inl rfl),?_⟩
    rw [hpattern,join_append ws rest hne hrest,List.map_append,hplain]
    exact matches_lits.mpr ⟨_,rfl,.lit (matches_any _)⟩

/-- An allowing rule comes from a pattern that is its words and a `*`. -/
theorem allow_source {rules : Rules} {argv : List String} {r : PrefixRule}
    (h : r ∈ codexRules rules) (hdecision : r.decision = .allow) (hcovers : covers r.pattern argv) :
    ∃ pattern literal, (pattern,.allow) ∈ rules ∧ literal ≠ [] ∧
      (∀ w ∈ literal, Word w ∧ isLiteral w.toList ∧ w.toList.head? ≠ some '#') ∧
      tokens pattern = literal.map String.toList ++ [['*']] ∧ literal <+: argv := by
  rcases List.mem_append.mp h with h | h
  · obtain ⟨rule,hrule,rfl⟩ := List.mem_map.mp h
    obtain ⟨pattern,action,hin,hrender⟩ := mem_rendered.mp hrule
    obtain ⟨hd,-,hne,htokens⟩ := render_rule.mp hrender
    rw [show rule.decision = .allow from hdecision] at hd
    obtain ⟨rfl,hexact,htrailing⟩ := decision_allow hd
    obtain ⟨-,hplain⟩ := literal_tokens pattern
    have hwords := exact_tokens hexact htrailing
    have hpre : rule.tokens <+: argv := covers_literal.mp hcovers
    have hliteral : ∀ w ∈ rule.tokens, Word w ∧ isLiteral w.toList ∧ w.toList.head? ≠ some '#' := by
      intro w hw
      rw [htokens] at hw
      obtain ⟨v,hv,rfl⟩ := List.mem_map.mp hw
      have hin : v ∈ tokens pattern := by
        rw [hwords]
        exact List.mem_append_left _ hv
      have hfree := word_free hin
      rw [Word,String.toList_ofList]
      exact ⟨⟨by simpa using hfree.1,hfree.2⟩,hplain v hv,token_head hin⟩
    have hsome : rule.tokens ≠ [] := by
      rw [htokens]
      simpa using hne
    refine ⟨pattern,rule.tokens,hin,hsome,hliteral,?_,hpre⟩
    rw [hwords,htokens]
    simp [Function.comp_def]
  · -- the rule for shell scripts asks
    split at h
    · obtain rfl := List.mem_singleton.mp h
      cases hdecision
    · cases h

theorem coveredWrapper_covered {rules : Rules} {pattern : String} {action : Action}
    (haction : action ≠ .allow) (h : coveredWrapper rules pattern action) :
    Covered rules pattern action := by
  simp only [coveredWrapper,Bool.and_eq_true,decide_eq_true_eq] at h
  obtain ⟨hne,hle⟩ := h
  refine ⟨hne,?_⟩
  unfold bareAction at hle
  cases htwin : rules.lookup (unwrapped pattern) with
  | some bare =>
    rw [htwin] at hle
    exact ⟨bare,.inl rfl,hle⟩
  | none =>
    rw [htwin] at hle
    cases hall : rules.lookup "*" with
    | some bare =>
      rw [hall] at hle
      exact ⟨bare,.inr ⟨rfl,rfl⟩,hle⟩
    | none =>
      rw [hall] at hle
      cases action <;> simp [strictness] at haction hle

/-- A pattern without words matches no vector that an allowing rule covers. -/
theorem empty_unmatched {pattern : String} {argv : List String} {w : String}
    (hargv : ∀ w ∈ argv, Word w) (hempty : tokens pattern = []) (hhead : argv.head? = some w)
    (hcomment : w.toList.head? ≠ some '#') : ¬ Matched pattern (commandLine argv) := by
  rintro ⟨reading,hreading,hmatch⟩
  obtain ⟨rest,rfl⟩ := List.head?_eq_some_iff.mp hhead
  obtain ⟨hne,hfree⟩ := hargv w List.mem_cons_self
  obtain ⟨x,v,hw⟩ := List.exists_cons_of_ne_nil (l := w.toList) (by simpa using hne)
  have hx : space x = false := hfree x (by simp [hw])
  have hxc : x ≠ '#' := by
    rintro rfl
    simp [hw] at hcomment
  obtain ⟨t,ht⟩ : ∃ t, (commandLine (w::rest)).toList = x::t := by
    rw [commandLine_toList,List.map_cons,hw]
    cases rest with
    | nil => exact ⟨v,by simp⟩
    | cons u rest => exact ⟨_,by rw [List.map_cons,List.intercalate_cons_cons]; rfl⟩
  rw [ht] at hmatch
  cases hp : pattern.toList with
  | nil =>
    rw [hp] at hreading
    rcases mem_readings.mp hreading with rfl | h
    · cases hmatch
    · exact absurd h.symm (by simp)
  | cons c cs =>
    have hsplit : tokens pattern = words space (command (c::cs)) := by rw [tokens,hp]
    rw [hempty] at hsplit
    by_cases hc : space c ∨ c = '#'
    · -- the first letter of the command is neither
      have hcx : c ≠ x := by
        rintro rfl
        rcases hc with h | h
        · rw [h] at hx
          cases hx
        · exact hxc h
      have htoken : token c = .lit c := by
        rcases hc with h | rfl
        · exact token_blank h
        · rfl
      rw [hp] at hreading
      rcases mem_readings.mp hreading with rfl | h
      · rw [List.map_cons,htoken] at hmatch
        cases hmatch
        exact hcx rfl
      · cases reading with
        | nil =>
          obtain ⟨rfl,rfl⟩ := List.cons.inj h
          revert hsplit
          decide
        | cons d reading =>
          obtain ⟨rfl,-⟩ := List.cons.inj h
          rw [List.map_cons,htoken] at hmatch
          cases hmatch
          exact hcx rfl
    · obtain ⟨hspace,hhash⟩ := not_or.mp hc
      have hspace : space c = false := by simpa using hspace
      have hin : c ∈ command (c::cs) := by
        rw [command_eq (by simpa using hhash),uncomment,hspace]
        simp
      obtain ⟨u,hu,-⟩ := mem_word hspace hin
      rw [← hsplit] at hu
      cases hu

theorem mem_sorted {texts : List String} {text : String} : text ∈ sorted texts ↔ text ∈ texts :=
  (List.mergeSort_perm _ _).mem_iff

/-- The lines of the text: rules, pinned programs, the rule for scripts and notes. -/
theorem mem_outputLines {rules : Rules} {executableDirs : List String} {line : String} :
    line ∈ outputLines rules executableDirs ↔
      (∃ rule ∈ rendered rules, line = prefixRule rule) ∨
      (∃ name ∈ bareNames rules, line = hostExecutable executableDirs name) ∨
      (guarded rules ∧ line = shellPrompt) ∨ line ∈ notes rules := by
  simp only [outputLines,List.mem_append,List.mem_eraseDups,mem_sorted,List.mem_map,
    eq_comm (b := line),List.mem_ite_nil_right,List.mem_singleton,or_assoc]

/-- No command is allowed that the patterns do not allow. Patterns that ask or deny and begin with
literal words have a rule; where the rules allow, so does a pattern, written with single blanks and
no comment, and no other pattern but the catch-all, wrappers that are covered and patterns that are
noted objects. -/
theorem codex_sound (rules : Rules) (argv : List String) (hargv : ∀ w ∈ argv, Word w) :
    (∀ pattern action, (pattern,action) ∈ rules → action ≠ .allow → pattern ≠ "*" →
      (analyse pattern).literal ≠ [] → Matched pattern (commandLine argv) →
      ∃ r ∈ codexRules rules, r.decision ≠ .allow ∧ covers r.pattern argv) ∧
    (verdict (codexRules rules) argv = some .allow →
      (∃ pattern, (pattern,.allow) ∈ rules ∧ AllowsPrefix pattern argv) ∧
      ∀ pattern action, (pattern,action) ∈ rules → action ≠ .allow →
        Matched pattern (commandLine argv) →
        pattern = "*" ∨ Covered rules pattern action ∨
          action.name ++ " " ++ pattern ∈ unrepresentable rules) := by
  refine ⟨fun pattern action h haction hall hliteral hmatch =>
    strict_covers hargv h haction hall hliteral hmatch,fun h => ?_⟩
  obtain ⟨⟨r,hr,hcovers,hdecision⟩,honly⟩ := verdict_allow h
  obtain ⟨source,literal,hsource,hne,hwords,htokens,hpre⟩ := allow_source hr hdecision hcovers
  have hmatched := literal_matched hne (fun w hw => (hwords w hw).2.1) hpre
  refine ⟨⟨source,hsource,literal,hne,hwords,htokens,hmatched⟩,
    fun pattern action hin haction hmatch => ?_⟩
  by_cases hall : pattern = "*"
  · exact .inl hall
  refine .inr ?_
  by_cases hliteral : (analyse pattern).literal = []
  · have hempty : ¬ (analyse pattern).empty := by
      intro hempty
      obtain ⟨w,ws,rfl⟩ := List.exists_cons_of_ne_nil hne
      obtain ⟨rest,rfl⟩ := hpre
      exact empty_unmatched hargv (empty_tokens.mp hempty) rfl (hwords w List.mem_cons_self).2.2
        hmatch
    obtain ⟨d,-,hd⟩ := @decision_strict rules _ (analyse pattern) haction
    have hnot : ¬ (pattern = "*" ∨ (analyse pattern).empty) := by simp [hall,hempty]
    by_cases hcovered : coveredWrapper rules pattern action
    · exact .inl (coveredWrapper_covered haction hcovered)
    · refine .inr (mem_unrepresentable hin ?_)
      simp only [render,hd,if_neg hnot,hliteral,ne_eq,not_true_eq_false,if_false,if_neg hcovered]
  · obtain ⟨r,hr,hstrict,hcovers⟩ := strict_covers hargv hin haction hall hliteral hmatch
    exact absurd (honly r hr hcovers) hstrict

def sampleRules : Rules :=
  [("*",.ask),("*=* rm *",.deny),("git push *",.deny),("git status *",.allow)]

/-- A command that is allowed, and by which pattern. -/
theorem sample_allowed :
    verdict (codexRules sampleRules) ["git","status","-s"] = some .allow ∧
      ∃ pattern, (pattern,.allow) ∈ sampleRules ∧ AllowsPrefix pattern ["git","status","-s"] := by
  have hall : (["git","status","-s"].all fun w => w ≠ "" && w.toList.all fun c => !space c) := by
    decide +kernel
  have hwords : ∀ w ∈ ["git","status","-s"], Word w := fun w hw => by
    simpa [Word] using List.all_eq_true.mp hall w hw
  have hverdict : verdict (codexRules sampleRules) ["git","status","-s"] = some .allow := by
    decide +kernel
  exact ⟨hverdict,((codex_sound _ _ hwords).2 hverdict).1⟩

/-- Two commands that are allowed: one that the allowing pattern does not match, for it has two
blanks, and one that matches a denying pattern whose command has no rule of its own. -/
theorem allowed_beyond :
    (verdict (codexRules [("git  push *",.allow)]) ["git","push"] = some .allow ∧
      ¬ Matched "git  push *" (commandLine ["git","push"])) ∧
    verdict (codexRules [("*",.deny),("*=* rm *",.deny),("git *",.allow)])
        ["git","a=b","rm","x"] = some .allow ∧
      Matched "*=* rm *" (commandLine ["git","a=b","rm","x"]) ∧
      unwrapped "*=* rm *" = "rm *" ∧
      unrepresentable [("*",.deny),("*=* rm *",.deny),("git *",.allow)] = [] := by
  refine ⟨⟨by decide +kernel,by decide +kernel⟩,by decide +kernel,by decide +kernel,
    by decide +kernel,by decide +kernel⟩

end CodexRules
end CanixToolbelt
