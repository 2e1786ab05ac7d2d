import Jack.Proofs.Grammar.LookAhead

/-!
# Completion

What is begun can be ended: every rule derives some tokens, and every kind that a phrase is said to begin
with does begin some tokens of it.
-/

namespace Jack

open Grammar

/-- The kinds are those of the first tokens of some derivation tree of the rule. -/
def Rule.Begins (rule : Rule) (kinds : List Kind) : Prop :=
  ∃ tokens, rule.Yields tokens ∧ kinds <+: tokens.map Token.kind

namespace Phrase

def Yields (phrase : Phrase) (tokens : List Token) : Prop :=
  ∃ nodes : List Node, phrase.Spells (nodes.map Node.label) ∧ (∀ node ∈ nodes, node.Derived) ∧
    Forest.tokens nodes = tokens

def Begins (phrase : Phrase) (kinds : List Kind) : Prop :=
  ∃ tokens, phrase.Yields tokens ∧ kinds <+: tokens.map Token.kind

/-! ## Putting tokens together -/

theorem yields_nil {phrase : Phrase} (spells : phrase.Spells []) : phrase.Yields [] :=
  ⟨[], spells, by simp, rfl⟩

theorem yields_token {kinds : List Kind} {token : Token} (member : token.kind ∈ kinds) :
    (Phrase.token kinds).Yields [token] :=
  ⟨[.leaf token], .token member, by simpa using Node.Derived.leaf token, by simp [Node.tokens]⟩

theorem Yields.append {front back whole : Phrase} {before after : List Token}
    (join : ∀ {left right}, front.Spells left → back.Spells right → whole.Spells (left ++ right))
    (first : front.Yields before) (second : back.Yields after) : whole.Yields (before ++ after) := by
  obtain ⟨nodes, spells, derived, rfl⟩ := first
  obtain ⟨later, spells', derived', rfl⟩ := second
  refine ⟨nodes ++ later, ?_, ?_, Forest.tokens_append nodes later⟩
  · rw [List.map_append]
    exact join spells spells'
  · intro node member
    rcases List.mem_append.mp member with early | late
    · exact derived node early
    · exact derived' node late

theorem Yields.mono {front whole : Phrase} {tokens : List Token}
    (join : ∀ {labels}, front.Spells labels → whole.Spells labels) (yields : front.Yields tokens) :
    whole.Yields tokens := by
  obtain ⟨nodes, spells, derived, rfl⟩ := yields
  exact ⟨nodes, join spells, derived, rfl⟩

theorem yields_rule_iff {r : Rule} {tokens : List Token} :
    (Phrase.rule r).Yields tokens ↔ r.Yields tokens := by
  constructor
  · rintro ⟨nodes, spells, derived, rfl⟩
    obtain ⟨node, rfl, label⟩ := List.map_eq_singleton_iff.mp (spells_rule.mp spells)
    exact ⟨node, ⟨label, derived node (by simp)⟩, by simp⟩
  · rintro ⟨node, ⟨label, derived⟩, rfl⟩
    exact ⟨[node], by simpa using label, by simpa using derived, by simp⟩

theorem Yields.rule {r : Rule} {tokens : List Token} (yields : r.body.Yields tokens) :
    (Phrase.rule r).Yields tokens := by
  obtain ⟨nodes, spells, derived, rfl⟩ := yields
  exact yields_rule_iff.mpr ⟨.branch r nodes, ⟨rfl, .branch (r.body_spells_iff.mp spells) derived⟩, by
    simp [Node.tokens]⟩

/-! ## Nothing at all -/

theorem yields_of_nullable {phrase : Phrase} (nullable : phrase.nullable = true) : phrase.Yields [] := by
  induction phrase with
  | nothing => exact yields_nil .nothing
  | refuse | token => cases nullable
  | rule r =>
      -- The rules that may be empty have a right-hand side without labels.
      have production : Production r [] := by
        cases r with
        | parameterList => exact .noParameters
        | statements => exact .statements .none
        | expressionList => exact .noExpressions
        | _ => cases nullable
      exact (yields_nil (r.body_spells_iff.mpr production)).rule
  | andThen front back ihFront ihBack =>
      obtain ⟨left, right⟩ := Bool.and_eq_true_iff.mp nullable
      exact (ihFront left).append .andThen (ihBack right)
  | choose kinds chosen otherwise ihChosen ihOtherwise =>
      rcases Bool.or_eq_true_iff.mp nullable with left | right
      · exact (ihChosen left).mono .chosen
      · exact (ihOtherwise right).mono .otherwise
  | many kinds round => exact yields_nil (.done kinds round)
  | noted note body ih => exact (ih nullable).mono .noted

/-! ## Some tokens of every rule -/

/-- Some tokens make up the phrase, when `table` says so of the rules. -/
def productiveBy (table : Rule → Bool) : Phrase → Bool
  | .nothing => true
  | .refuse _ => false
  | .token kinds => !kinds.isEmpty
  | .rule r => table r
  | .andThen front back => front.productiveBy table && back.productiveBy table
  | .choose _ chosen otherwise => chosen.productiveBy table || otherwise.productiveBy table
  | .many _ _ => true
  | .noted _ body => body.productiveBy table

theorem exists_yields_of_productiveBy {table : Rule → Bool}
    (rules : ∀ r, table r = true → ∃ tokens, (Phrase.rule r).Yields tokens) {phrase : Phrase}
    (productive : phrase.productiveBy table = true) : ∃ tokens, phrase.Yields tokens := by
  induction phrase with
  | nothing => exact ⟨[], yields_nil .nothing⟩
  | refuse => cases productive
  | token kinds =>
      cases kinds with
      | nil => cases productive
      | cons kind rest => exact ⟨[{ (default : Token) with kind }], yields_token (List.mem_cons_self)⟩
  | rule r => exact rules r productive
  | andThen front back ihFront ihBack =>
      obtain ⟨left, right⟩ := Bool.and_eq_true_iff.mp productive
      obtain ⟨before, first⟩ := ihFront left
      obtain ⟨after, second⟩ := ihBack right
      exact ⟨before ++ after, first.append .andThen second⟩
  | choose kinds chosen otherwise ihChosen ihOtherwise =>
      rcases Bool.or_eq_true_iff.mp productive with left | right
      · obtain ⟨tokens, yields⟩ := ihChosen left
        exact ⟨tokens, yields.mono .chosen⟩
      · obtain ⟨tokens, yields⟩ := ihOtherwise right
        exact ⟨tokens, yields.mono .otherwise⟩
  | many kinds round => exact ⟨[], yields_nil (.done kinds round)⟩
  | noted note body ih =>
      obtain ⟨tokens, yields⟩ := ih productive
      exact ⟨tokens, yields.mono .noted⟩

end Phrase

namespace Rule

def productiveWithin : Nat → Rule → Bool
  | 0, _ => false
  | steps + 1, rule => rule.body.productiveBy (productiveWithin steps)

theorem exists_yields_of_productiveWithin {steps : Nat} {rule : Rule}
    (productive : rule.productiveWithin steps = true) :
    ∃ tokens, (Phrase.rule rule).Yields tokens := by
  induction steps generalizing rule with
  | zero => cases productive
  | succ steps ih =>
      obtain ⟨tokens, yields⟩ := Phrase.exists_yields_of_productiveBy (fun _ => ih) productive
      exact ⟨tokens, yields.rule⟩

theorem exists_yields (rule : Rule) : ∃ tokens, (Phrase.rule rule).Yields tokens := by
  have productive : rule.productiveWithin 3 = true := by cases rule <;> decide
  exact exists_yields_of_productiveWithin productive

end Rule

namespace Phrase

def productive (phrase : Phrase) : Bool := phrase.productiveBy fun _ => true

theorem exists_yields {phrase : Phrase} (productive : phrase.productive = true) :
    ∃ tokens, phrase.Yields tokens :=
  exists_yields_of_productiveBy (fun r _ => r.exists_yields) productive

/-! ## Completing what is begun -/

/-- Whatever stands behind the start of a sequence in the phrase can be completed. -/
def completable : Phrase → Bool
  | .nothing | .refuse _ | .token _ | .rule _ => true
  | .andThen front back => front.completable && back.completable && back.productive
  | .choose _ chosen otherwise => chosen.completable && otherwise.completable
  | .many _ round => round.completable
  | .noted _ body => body.completable

theorem Begins.mono {front whole : Phrase} {kinds : List Kind}
    (join : ∀ {labels}, front.Spells labels → whole.Spells labels) (begins : front.Begins kinds) :
    whole.Begins kinds := by
  obtain ⟨tokens, yields, starts⟩ := begins
  exact ⟨tokens, yields.mono join, starts⟩

theorem Begins.rule {r : Rule} {kinds : List Kind} (begins : r.body.Begins kinds) :
    (Phrase.rule r).Begins kinds := by
  obtain ⟨tokens, yields, starts⟩ := begins
  exact ⟨tokens, yields.rule, starts⟩

theorem Begins.andThen {front back : Phrase} {kinds : List Kind} (begins : front.Begins kinds)
    (productive : back.productive = true) : (Phrase.andThen front back).Begins kinds := by
  obtain ⟨tokens, yields, starts⟩ := begins
  obtain ⟨after, yields'⟩ := exists_yields productive
  refine ⟨tokens ++ after, yields.append .andThen yields', ?_⟩
  rw [List.map_append]
  exact starts.trans (List.prefix_append _ _)

theorem Begins.many {round : Phrase} {kinds : List Kind} (select : List Kind)
    (begins : round.Begins kinds) : (Phrase.many select round).Begins kinds :=
  begins.mono fun spells => by simpa using Spells.again spells (.done select round)

theorem Begins.after {front back whole : Phrase} {tokens : List Token} {kinds : List Kind}
    (join : ∀ {left right}, front.Spells left → back.Spells right → whole.Spells (left ++ right))
    (yields : front.Yields tokens) (begins : back.Begins kinds) :
    whole.Begins (tokens.map Token.kind ++ kinds) := by
  obtain ⟨after, yields', starts⟩ := begins
  refine ⟨tokens ++ after, yields.append join yields', ?_⟩
  rw [List.map_append]
  exact (List.prefix_append_right_inj _).mpr starts

theorem begins_of_mem_firstBy {table : Rule → List Kind}
    (rules : ∀ r, ∀ kind ∈ table r, (Phrase.rule r).Begins [kind]) {phrase : Phrase} {kind : Kind}
    (completable : phrase.completable = true) (member : kind ∈ phrase.firstBy table) :
    phrase.Begins [kind] := by
  induction phrase with
  | nothing | refuse => cases member
  | token kinds => exact ⟨[{ (default : Token) with kind }], yields_token member, List.prefix_rfl⟩
  | rule r => exact rules r kind member
  | andThen front back ihFront ihBack =>
      simp only [Phrase.completable, Bool.and_eq_true] at completable
      obtain ⟨⟨left, right⟩, productive⟩ := completable
      rcases List.mem_append.mp member with early | late
      · exact (ihFront left early).andThen productive
      · split at late
        next empty => exact (ihBack right late).after .andThen (yields_of_nullable empty)
        next => cases late
  | choose kinds chosen otherwise ihChosen ihOtherwise =>
      obtain ⟨left, right⟩ := Bool.and_eq_true_iff.mp completable
      rcases List.mem_append.mp member with early | late
      · exact (ihChosen left early).mono .chosen
      · exact (ihOtherwise right late).mono .otherwise
  | many kinds round ih => exact (ih completable member).many kinds
  | noted note body ih => exact (ih completable member).mono .noted

end Phrase

theorem Rule.completable_body (rule : Rule) : rule.body.completable = true := by
  cases rule <;> decide

theorem Rule.begins_of_mem_firstWithin (steps : Nat) :
    ∀ rule : Rule, ∀ kind ∈ rule.firstWithin steps, (Phrase.rule rule).Begins [kind] := by
  induction steps with
  | zero => nofun
  | succ steps ih =>
      intro rule kind member
      exact (Phrase.begins_of_mem_firstBy ih rule.completable_body member).rule

theorem Phrase.begins_of_mem_first {phrase : Phrase} {kind : Kind}
    (completable : phrase.completable = true) (member : kind ∈ phrase.first) : phrase.Begins [kind] :=
  begins_of_mem_firstBy (Rule.begins_of_mem_firstWithin 3) completable member

theorem Rule.begins_of_phrase {rule : Rule} {kinds : List Kind}
    (begins : (Phrase.rule rule).Begins kinds) : rule.Begins kinds := by
  obtain ⟨tokens, yields, starts⟩ := begins
  exact ⟨tokens, Phrase.yields_rule_iff.mp yields, starts⟩

theorem Rule.Begins.of_append {rule : Rule} {kinds more : List Kind}
    (begins : rule.Begins (kinds ++ more)) : rule.Begins kinds := by
  obtain ⟨tokens, yields, starts⟩ := begins
  exact ⟨tokens, yields, (List.prefix_append kinds more).trans starts⟩

end Jack
