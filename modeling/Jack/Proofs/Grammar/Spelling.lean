import Jack.Grammar.Rules
import Jack.Proofs.Grammar.Derivation

/-!
# What phrases spell

A phrase spells the lists of labels that it stands for, whatever its look-ahead would select. The
right-hand side of a rule, as a phrase, spells exactly the productions of the rule.
-/

namespace Jack

open Grammar

namespace Phrase

inductive Spells : Phrase → List Label → Prop where
  | nothing : Spells .nothing []
  | token {kinds : List Kind} {kind : Kind} (member : kind ∈ kinds) :
      Spells (.token kinds) [.token kind]
  | rule (rule : Rule) : Spells (.rule rule) [.rule rule]
  | andThen {front back : Phrase} {before after : List Label} (first : Spells front before)
      (second : Spells back after) : Spells (.andThen front back) (before ++ after)
  | chosen {kinds : List Kind} {chosen otherwise : Phrase} {labels : List Label}
      (spells : Spells chosen labels) : Spells (.choose kinds chosen otherwise) labels
  | otherwise {kinds : List Kind} {chosen otherwise : Phrase} {labels : List Label}
      (spells : Spells otherwise labels) : Spells (.choose kinds chosen otherwise) labels
  | done (kinds : List Kind) (round : Phrase) : Spells (.many kinds round) []
  | again {kinds : List Kind} {round : Phrase} {before after : List Label}
      (first : Spells round before) (rest : Spells (.many kinds round) after) :
      Spells (.many kinds round) (before ++ after)
  | noted {note : Note} {body : Phrase} {labels : List Label} (spells : Spells body labels) :
      Spells (.noted note body) labels

variable {labels : List Label}

/-! ## One equation for each form of phrase -/

@[simp] theorem spells_nothing : Spells .nothing labels ↔ labels = [] := by
  constructor
  · intro h
    cases h
    rfl
  · rintro rfl
    exact .nothing

@[simp] theorem not_spells_refuse (violation : Violation) : ¬ Spells (.refuse violation) labels := by
  intro h
  cases h

theorem spells_token {kinds : List Kind} :
    Spells (.token kinds) labels ↔ ∃ kind ∈ kinds, labels = [.token kind] := by
  constructor
  · intro h
    cases h with
    | token member => exact ⟨_, member, rfl⟩
  · rintro ⟨kind, member, rfl⟩
    exact .token member

@[simp] theorem spells_rule {rule : Rule} : Spells (.rule rule) labels ↔ labels = [.rule rule] := by
  constructor
  · intro h
    cases h
    rfl
  · rintro rfl
    exact .rule rule

@[simp] theorem spells_andThen {front back : Phrase} :
    Spells (.andThen front back) labels ↔
      ∃ before, Spells front before ∧ ∃ after, Spells back after ∧ labels = before ++ after := by
  constructor
  · intro h
    cases h with
    | andThen first second => exact ⟨_, first, _, second, rfl⟩
  · rintro ⟨before, first, after, second, rfl⟩
    exact .andThen first second

@[simp] theorem spells_choose {kinds : List Kind} {chosen otherwise : Phrase} :
    Spells (.choose kinds chosen otherwise) labels ↔ Spells chosen labels ∨ Spells otherwise labels := by
  constructor
  · intro h
    cases h with
    | chosen spells => exact Or.inl spells
    | otherwise spells => exact Or.inr spells
  · rintro (spells | spells)
    · exact .chosen spells
    · exact .otherwise spells

@[simp] theorem spells_noted {note : Note} {body : Phrase} :
    Spells (.noted note body) labels ↔ Spells body labels := by
  constructor
  · intro h
    cases h with
    | noted spells => exact spells
  · exact .noted

@[simp] theorem spells_keyword {keyword : Keyword} :
    (Phrase.keyword keyword).Spells labels ↔ labels = [word keyword] := by
  simp [Phrase.keyword, spells_token]

@[simp] theorem spells_symbol {symbol : Symbol} :
    (Phrase.symbol symbol).Spells labels ↔ labels = [sign symbol] := by
  simp [Phrase.symbol, spells_token]

@[simp] theorem spells_identifier : identifier.Spells labels ↔ labels = [name] := by
  simp [identifier, spells_token]

@[simp] theorem spells_single {phrase : Phrase} :
    (sequence [phrase]).Spells labels ↔ phrase.Spells labels :=
  Iff.rfl

@[simp] theorem spells_sequence {phrase next : Phrase} {rest : List Phrase} :
    (sequence (phrase :: next :: rest)).Spells labels ↔ ∃ before, phrase.Spells before ∧
      ∃ after, (sequence (next :: rest)).Spells after ∧ labels = before ++ after := by
  simp [sequence]

theorem repeated_of_spells {kinds : List Kind} {round : Phrase} {Item : List Label → Prop}
    (item : ∀ labels, round.Spells labels → Item labels) (h : Spells (.many kinds round) labels) :
    Repeated Item labels := by
  generalize same : Phrase.many kinds round = phrase at h
  induction h with
  | done => exact .none
  | again first _ _ ih =>
      cases same
      exact .more (item _ first) (ih rfl)
  | _ => cases same

theorem spells_of_repeated {kinds : List Kind} {round : Phrase} {Item : List Label → Prop}
    (item : ∀ labels, Item labels → round.Spells labels) (h : Repeated Item labels) :
    Spells (.many kinds round) labels := by
  induction h with
  | none => exact .done kinds round
  | more first _ ih => exact .again (item _ first) ih

theorem spells_many {kinds : List Kind} {round : Phrase} {Item : List Label → Prop}
    (item : ∀ labels, round.Spells labels ↔ Item labels) :
    Spells (.many kinds round) labels ↔ Repeated Item labels :=
  ⟨repeated_of_spells fun labels => (item labels).mp, spells_of_repeated fun labels => (item labels).mpr⟩

theorem spells_commaSeparated {phrase : Phrase} {Item : List Label → Prop}
    (item : ∀ labels, phrase.Spells labels ↔ Item labels) :
    (commaSeparated phrase).Spells labels ↔ Listed Item labels := by
  have next (labels : List Label) : (sequence [symbol .comma, phrase]).Spells labels ↔
      ∃ next, Item next ∧ labels = sign .comma :: next := by
    simp [item]
  simp only [commaSeparated, spells_sequence, spells_single, item, spells_many next]
  constructor
  · rintro ⟨front, first, back, rest, rfl⟩
    exact .items first rest
  · rintro ⟨first, rest⟩
    exact ⟨_, first, _, rest, rfl⟩

theorem spells_kinds (kinds : List Kind) (alternatives : List Label)
    (same : kinds.map Label.token = alternatives) :
    (Phrase.token kinds).Spells labels ↔ ∃ label ∈ alternatives, labels = [label] := by
  simp only [spells_token, ← same, List.mem_map]
  constructor
  · rintro ⟨kind, member, rfl⟩
    exact ⟨_, ⟨kind, member, rfl⟩, rfl⟩
  · rintro ⟨_, ⟨kind, member, rfl⟩, rfl⟩
    exact ⟨kind, member, rfl⟩

end Phrase

/-! ## Parts of right-hand sides -/

namespace Grammar

variable {labels : List Label}

open Phrase

theorem spells_parameter :
    (sequence [.token typeKinds, identifier]).Spells labels ↔ Parameter labels := by
  simp only [spells_sequence, spells_single, spells_kinds typeKinds typeNames rfl, spells_identifier,
    exists_eq_left]
  constructor
  · rintro ⟨_, ⟨type, named, rfl⟩, rfl⟩
    exact .parameter named
  · rintro ⟨named⟩
    exact ⟨_, ⟨_, named, rfl⟩, rfl⟩

theorem spells_operand :
    (sequence [.token Kind.binaryOps, .rule .term]).Spells labels ↔ Operand labels := by
  simp only [spells_sequence, spells_single, spells_kinds Kind.binaryOps binaryOperators rfl, spells_rule,
    exists_eq_left]
  constructor
  · rintro ⟨_, ⟨operator, binary, rfl⟩, rfl⟩
    exact .operand binary
  · rintro ⟨binary⟩
    exact ⟨_, ⟨_, binary, rfl⟩, rfl⟩

theorem spells_statement : statement.Spells labels ↔ Statement labels := by
  simp only [statement, oneOf, statementRules, List.foldr_cons, List.foldr_nil, spells_choose, spells_rule,
    not_spells_refuse, or_false]
  constructor
  · rintro (rfl | rfl | rfl | rfl | rfl) <;> constructor
  · rintro (_ | _ | _ | _ | _) <;> simp

theorem spells_callTail : callTail.Spells labels ↔ SubroutineCall labels := by
  simp only [callTail, oneOf, arguments, parenthesized, List.foldr_cons, List.foldr_nil, spells_noted,
    spells_choose, spells_sequence, spells_single, spells_symbol, spells_rule, spells_identifier, not_spells_refuse,
    or_false, exists_eq_left, List.cons_append, List.nil_append]
  constructor
  · rintro (rfl | rfl)
    · exact .direct
    · exact .qualified
  · rintro (_ | _) <;> simp

end Grammar

namespace Rule

variable {labels : List Label}

open Phrase

/-! ## Right-hand sides of rules -/

theorem spells_class : Rule.class.body.Spells labels ↔ Production .class labels := by
  simp only [body, spells_sequence, spells_single, spells_keyword, spells_identifier, spells_symbol,
    spells_many (fun _ => spells_rule), exists_eq_left, List.cons_append, List.nil_append]
  constructor
  · rintro ⟨_, ⟨_, ⟨_, ⟨declarations, declared, _, ⟨subroutines, defined, rfl⟩, rfl⟩, rfl⟩, rfl⟩, rfl⟩
    simpa using Production.classBody declared defined
  · intro h
    cases h with
    | classBody declared defined =>
        exact ⟨_, ⟨_, ⟨_, ⟨_, declared, _, ⟨_, defined, rfl⟩, rfl⟩, rfl⟩, rfl⟩, by simp⟩

theorem spells_classVarDec : Rule.classVarDec.body.Spells labels ↔ Production .classVarDec labels := by
  simp only [body, spells_sequence, spells_single, spells_kinds classVarKinds variableScopes rfl,
    spells_kinds typeKinds typeNames rfl, spells_commaSeparated (fun _ => spells_identifier),
    spells_symbol, exists_eq_left]
  constructor
  · rintro ⟨_, ⟨scope, belongs, rfl⟩, _, ⟨_, ⟨type, typed, rfl⟩, _, ⟨names, listed, rfl⟩, rfl⟩, rfl⟩
    exact .classVarDec belongs typed listed
  · intro h
    cases h with
    | classVarDec belongs typed listed =>
        exact ⟨_, ⟨_, belongs, rfl⟩, _, ⟨_, ⟨_, typed, rfl⟩, _, ⟨_, listed, rfl⟩, rfl⟩, rfl⟩

theorem spells_subroutineDec :
    Rule.subroutineDec.body.Spells labels ↔ Production .subroutineDec labels := by
  simp only [body, parenthesized, spells_sequence, spells_single,
    spells_kinds subroutineKinds subroutineFlavors rfl, spells_kinds returnTypeKinds resultTypes rfl,
    spells_identifier, spells_symbol, spells_rule, exists_eq_left, List.cons_append, List.nil_append]
  constructor
  · rintro ⟨_, ⟨flavor, flavored, rfl⟩, _, ⟨_, ⟨result, typed, rfl⟩, rfl⟩, rfl⟩
    exact .subroutineDec flavored typed
  · intro h
    cases h with
    | subroutineDec flavored typed =>
        exact ⟨_, ⟨_, flavored, rfl⟩, _, ⟨_, ⟨_, typed, rfl⟩, rfl⟩, rfl⟩

theorem spells_parameterList :
    Rule.parameterList.body.Spells labels ↔ Production .parameterList labels := by
  simp only [body, unlessNext, spells_choose, spells_nothing,
    spells_commaSeparated (fun _ => spells_parameter)]
  constructor
  · rintro (rfl | listed)
    · exact .noParameters
    · exact .parameters listed
  · intro h
    cases h with
    | noParameters => exact Or.inl rfl
    | parameters listed => exact Or.inr listed

theorem spells_subroutineBody :
    Rule.subroutineBody.body.Spells labels ↔ Production .subroutineBody labels := by
  simp only [body, braced, spells_sequence, spells_single, spells_symbol,
    spells_many (fun _ => spells_rule), spells_rule, exists_eq_left, List.cons_append, List.nil_append]
  constructor
  · rintro ⟨_, ⟨_, ⟨declarations, declared, rfl⟩, rfl⟩, rfl⟩
    simpa using Production.subroutineBody declared
  · intro h
    cases h with
    | subroutineBody declared => exact ⟨_, ⟨_, ⟨_, declared, rfl⟩, rfl⟩, by simp⟩

theorem spells_varDec : Rule.varDec.body.Spells labels ↔ Production .varDec labels := by
  simp only [body, spells_sequence, spells_single, spells_keyword, spells_kinds typeKinds typeNames rfl,
    spells_commaSeparated (fun _ => spells_identifier), spells_symbol, exists_eq_left, List.cons_append,
    List.nil_append]
  constructor
  · rintro ⟨_, ⟨_, ⟨type, typed, rfl⟩, _, ⟨names, listed, rfl⟩, rfl⟩, rfl⟩
    exact .varDec typed listed
  · intro h
    cases h with
    | varDec typed listed => exact ⟨_, ⟨_, ⟨_, typed, rfl⟩, _, ⟨_, listed, rfl⟩, rfl⟩, rfl⟩

theorem spells_statements : Rule.statements.body.Spells labels ↔ Production .statements labels := by
  simp only [body, spells_many (fun _ => spells_statement)]
  constructor
  · exact .statements
  · intro h
    cases h with
    | statements repeated => exact repeated

theorem spells_letStatement :
    Rule.letStatement.body.Spells labels ↔ Production .letStatement labels := by
  simp only [body, ifNext, bracketed, spells_sequence, spells_single, spells_keyword, spells_identifier,
    spells_choose, spells_symbol, spells_rule, spells_nothing, exists_eq_left, exists_eq_or_imp,
    List.cons_append, List.nil_append]
  constructor
  · rintro (rfl | rfl)
    · exact .letElement
    · exact .letVariable
  · rintro (_ | _) <;> simp

theorem spells_ifStatement : Rule.ifStatement.body.Spells labels ↔ Production .ifStatement labels := by
  simp only [body, ifNext, parenthesized, block, braced, spells_sequence, spells_single, spells_keyword,
    spells_choose, spells_symbol, spells_rule, spells_nothing, exists_eq_left, exists_eq_or_imp,
    List.cons_append, List.nil_append, List.append_nil]
  constructor
  · rintro (rfl | rfl)
    · exact .ifThenElse
    · exact .ifThen
  · rintro (_ | _) <;> simp

theorem spells_whileStatement :
    Rule.whileStatement.body.Spells labels ↔ Production .whileStatement labels := by
  simp only [body, parenthesized, block, braced, spells_sequence, spells_single, spells_keyword,
    spells_symbol, spells_rule, exists_eq_left, List.cons_append, List.nil_append]
  constructor
  · rintro rfl
    exact .whileLoop
  · rintro ⟨⟩
    rfl

theorem spells_doStatement : Rule.doStatement.body.Spells labels ↔ Production .doStatement labels := by
  simp only [body, spells_sequence, spells_single, spells_keyword, spells_noted, spells_identifier,
    spells_callTail, spells_symbol, exists_eq_left, List.cons_append, List.nil_append]
  constructor
  · rintro ⟨_, ⟨_, ⟨call, made, rfl⟩, rfl⟩, rfl⟩
    exact .doCall made
  · intro h
    cases h with
    | doCall made => exact ⟨_, ⟨_, ⟨_, made, rfl⟩, rfl⟩, rfl⟩

theorem spells_returnStatement :
    Rule.returnStatement.body.Spells labels ↔ Production .returnStatement labels := by
  simp only [body, unlessNext, spells_sequence, spells_single, spells_keyword, spells_choose, spells_symbol,
    spells_rule, spells_nothing, exists_eq_left, exists_eq_or_imp, List.cons_append, List.nil_append]
  constructor
  · rintro (rfl | rfl)
    · exact .returnNothing
    · exact .returnValue
  · rintro (_ | _) <;> simp

theorem spells_expression : Rule.expression.body.Spells labels ↔ Production .expression labels := by
  simp only [body, spells_sequence, spells_single, spells_rule, spells_many (fun _ => spells_operand),
    exists_eq_left, List.cons_append, List.nil_append]
  constructor
  · rintro ⟨operands, repeated, rfl⟩
    exact .expression repeated
  · intro h
    cases h with
    | expression repeated => exact ⟨_, repeated, rfl⟩

theorem spells_term : Rule.term.body.Spells labels ↔ Production .term labels := by
  simp only [body, ifNext, bracketed, parenthesized, spells_choose, spells_token,
    spells_kinds keywordConstants constantWords rfl, spells_kinds unaryOps unaryOperators rfl, spells_noted,
    spells_sequence, spells_single, spells_identifier, spells_callTail, spells_symbol, spells_rule,
    spells_nothing, not_spells_refuse, List.mem_cons, List.not_mem_nil, or_false, exists_eq_or_imp,
    exists_eq_left, List.cons_append, List.nil_append]
  constructor
  · rintro ((rfl | rfl) | ⟨label, constant, rfl⟩ | ⟨after, tail, rfl⟩ | rfl | ⟨_, ⟨label, leads, rfl⟩, rfl⟩)
    · exact .integer
    · exact .string
    · exact .keyword constant
    · rcases tail with made | rfl | rfl
      · exact .call made
      · exact .element
      · exact .variableName
    · exact .parentheses
    · exact .unary leads
  · intro h
    cases h with
    | integer => exact Or.inl (Or.inl rfl)
    | string => exact Or.inl (Or.inr rfl)
    | keyword constant => exact Or.inr (Or.inl ⟨_, constant, rfl⟩)
    | variableName => exact Or.inr (Or.inr (Or.inl ⟨_, Or.inr (Or.inr rfl), rfl⟩))
    | element => exact Or.inr (Or.inr (Or.inl ⟨_, Or.inr (Or.inl rfl), rfl⟩))
    | call made => exact Or.inr (Or.inr (Or.inl ⟨_, Or.inl made, rfl⟩))
    | parentheses => exact Or.inr (Or.inr (Or.inr (Or.inl rfl)))
    | unary leads => exact Or.inr (Or.inr (Or.inr (Or.inr ⟨_, ⟨_, leads, rfl⟩, rfl⟩)))

theorem spells_expressionList :
    Rule.expressionList.body.Spells labels ↔ Production .expressionList labels := by
  simp only [body, unlessNext, spells_choose, spells_nothing,
    spells_commaSeparated (fun _ => spells_noted.trans spells_rule)]
  constructor
  · rintro (rfl | listed)
    · exact .noExpressions
    · exact .expressions listed
  · intro h
    cases h with
    | noExpressions => exact Or.inl rfl
    | expressions listed => exact Or.inr listed

theorem body_spells_iff (rule : Rule) : rule.body.Spells labels ↔ Production rule labels := by
  cases rule with
  | «class» => exact spells_class
  | classVarDec => exact spells_classVarDec
  | subroutineDec => exact spells_subroutineDec
  | parameterList => exact spells_parameterList
  | subroutineBody => exact spells_subroutineBody
  | varDec => exact spells_varDec
  | statements => exact spells_statements
  | letStatement => exact spells_letStatement
  | ifStatement => exact spells_ifStatement
  | whileStatement => exact spells_whileStatement
  | doStatement => exact spells_doStatement
  | returnStatement => exact spells_returnStatement
  | expression => exact spells_expression
  | term => exact spells_term
  | expressionList => exact spells_expressionList

end Rule

end Jack
