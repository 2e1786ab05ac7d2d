import Jack.Proofs.Grammar.Spelling

/-!
# Look-ahead

Which tokens a phrase begins with and which ones may follow it, and the condition on both under which one
token of look-ahead selects the right alternative. The right-hand side of every rule meets it.
-/

namespace Jack

open Grammar

def Rule.nullable : Rule → Bool
  | .parameterList | .statements | .expressionList => true
  | _ => false

namespace Phrase

def nullable : Phrase → Bool
  | .nothing => true
  | .refuse _ => false
  | .token _ => false
  | .rule r => r.nullable
  | .andThen front back => front.nullable && back.nullable
  | .choose _ chosen otherwise => chosen.nullable || otherwise.nullable
  | .many _ _ => true
  | .noted _ body => body.nullable

/-- The kinds that a phrase begins with, when `table` gives those of the rules. -/
def firstBy (table : Rule → List Kind) : Phrase → List Kind
  | .nothing => []
  | .refuse _ => []
  | .token kinds => kinds
  | .rule r => table r
  | .andThen front back => front.firstBy table ++ if front.nullable then back.firstBy table else []
  | .choose _ chosen otherwise => chosen.firstBy table ++ otherwise.firstBy table
  | .many _ round => round.firstBy table
  | .noted _ body => body.firstBy table

end Phrase

namespace Rule

def firstWithin : Nat → Rule → List Kind
  | 0, _ => []
  | steps + 1, rule => rule.body.firstBy (firstWithin steps)

-- A list of expressions begins as an expression does, and that as a term: three steps reach every token.
def first (rule : Rule) : List Kind := rule.firstWithin 3

def follow : Rule → List Kind
  | .class => Kind.all
  | .classVarDec => classVarKinds ++ subroutineKinds ++ [.symbol .rBrace]
  | .subroutineDec | .subroutineBody => subroutineKinds ++ [.symbol .rBrace]
  | .parameterList | .expressionList => [.symbol .rParen]
  | .varDec => .keyword .var :: statementKinds ++ [.symbol .rBrace]
  | .statements => [.symbol .rBrace]
  | .letStatement | .ifStatement | .whileStatement | .doStatement | .returnStatement =>
      statementKinds ++ [.symbol .rBrace]
  | .expression => [.symbol .rBracket, .symbol .rParen, .symbol .semicolon, .symbol .comma]
  | .term => Kind.binaryOps ++ [.symbol .rBracket, .symbol .rParen, .symbol .semicolon, .symbol .comma]

end Rule

namespace Phrase

def first (phrase : Phrase) : List Kind := phrase.firstBy Rule.first

/-- The kinds that the next token may be of where the phrase stands, if `after` may follow it. -/
def ahead (phrase : Phrase) (after : List Kind) : List Kind :=
  phrase.first ++ if phrase.nullable then after else []

/-- One token of look-ahead decides every choice in the phrase, if `after` may follow it. -/
def Predictive : Phrase → List Kind → Prop
  | .nothing, _ => True
  | .refuse _, _ => True
  | .token _, _ => True
  | .rule r, after => ∀ kind ∈ after, kind ∈ r.follow
  | .andThen front back, after => front.Predictive (back.ahead after) ∧ back.Predictive after
  | .choose kinds chosen otherwise, after =>
      (∀ kind ∈ chosen.ahead after, kind ∈ kinds) ∧ (∀ kind ∈ otherwise.ahead after, kind ∉ kinds) ∧
        chosen.Predictive after ∧ otherwise.Predictive after
  | .many kinds round, after =>
      round.nullable = false ∧ (∀ kind ∈ round.first, kind ∈ kinds) ∧ (∀ kind ∈ after, kind ∉ kinds) ∧
        round.Predictive (round.first ++ after)
  | .noted _ body, after => body.Predictive after

instance decidablePredictive : (phrase : Phrase) → (after : List Kind) → Decidable (phrase.Predictive after)
  | .nothing, _ => .isTrue trivial
  | .refuse _, _ => .isTrue trivial
  | .token _, _ => .isTrue trivial
  | .rule r, after => inferInstanceAs (Decidable (∀ kind ∈ after, kind ∈ r.follow))
  | .andThen front back, after =>
      have := decidablePredictive front (back.ahead after)
      have := decidablePredictive back after
      inferInstanceAs (Decidable (_ ∧ _))
  | .choose _ chosen otherwise, after =>
      have := decidablePredictive chosen after
      have := decidablePredictive otherwise after
      inferInstanceAs (Decidable (_ ∧ _ ∧ _ ∧ _))
  | .many _ round, after =>
      have := decidablePredictive round (round.first ++ after)
      inferInstanceAs (Decidable (_ ∧ _ ∧ _ ∧ _))
  | .noted _ body, after => decidablePredictive body after

end Phrase

/-! ## The tables fit the grammar -/

namespace Rule

theorem nullable_body (rule : Rule) : rule.body.nullable = rule.nullable := by
  cases rule <;> decide

theorem mem_first_of_body {rule : Rule} : ∀ kind ∈ rule.body.first, kind ∈ rule.first := by
  cases rule <;> decide

theorem predictive_body (rule : Rule) : rule.body.Predictive rule.follow := by
  cases rule <;> decide

end Rule

/-! ## What derived nodes begin with -/

/-- The kind of the first token, where the end of input follows the last one. -/
def kindAhead : List Token → Kind
  | [] => .eof
  | token :: _ => token.kind

namespace Phrase

/-- The tokens may stand for the phrase as far as its look-ahead can tell. -/
def Opens (phrase : Phrase) (tokens : List Token) : Prop :=
  (tokens = [] ∧ phrase.nullable = true) ∨
    ∃ token rest, tokens = token :: rest ∧ token.kind ∈ phrase.first

theorem Opens.kindAhead_mem {phrase : Phrase} {tokens rest : List Token} {after : List Kind}
    (opens : phrase.Opens tokens) (next : kindAhead rest ∈ after) :
    kindAhead (tokens ++ rest) ∈ phrase.ahead after := by
  rcases opens with ⟨rfl, empty⟩ | ⟨token, more, rfl, member⟩
  · rw [ahead, if_pos empty]
    exact List.mem_append_right _ next
  · exact List.mem_append_left _ member

theorem mem_first_back {front back : Phrase} {kind : Kind} (empty : front.nullable = true)
    (member : kind ∈ back.first) : kind ∈ (Phrase.andThen front back).first := by
  have split : (Phrase.andThen front back).first =
      front.first ++ if front.nullable then back.first else [] := rfl
  rw [split, if_pos empty]
  exact List.mem_append_right _ member

theorem Opens.andThen {front back : Phrase} {before after : List Token} (first : front.Opens before)
    (second : back.Opens after) : (Phrase.andThen front back).Opens (before ++ after) := by
  rcases first with ⟨rfl, empty⟩ | ⟨token, rest, rfl, member⟩
  · rcases second with ⟨rfl, empty'⟩ | ⟨token, rest, rfl, member⟩
    · exact Or.inl ⟨rfl, by simp [nullable, empty, empty']⟩
    · exact Or.inr ⟨token, rest, rfl, mem_first_back empty member⟩
  · exact Or.inr ⟨token, rest ++ after, rfl, List.mem_append_left _ member⟩

theorem Opens.again {kinds : List Kind} {round : Phrase} {before after : List Token}
    (first : round.Opens before) (rest : (Phrase.many kinds round).Opens after) :
    (Phrase.many kinds round).Opens (before ++ after) := by
  rcases first with ⟨rfl, _⟩ | ⟨token, more, rfl, member⟩
  · exact rest
  · exact Or.inr ⟨token, more ++ after, rfl, member⟩

theorem Spells.opens {phrase : Phrase} {nodes : List Node}
    (rules : ∀ node ∈ nodes, ∀ r, node.label = .rule r → (Phrase.rule r).Opens node.tokens)
    (spells : phrase.Spells (nodes.map Node.label)) : phrase.Opens (Forest.tokens nodes) := by
  generalize same : nodes.map Node.label = labels at spells
  induction spells generalizing nodes with
  | nothing | done =>
      rw [List.map_eq_nil_iff.mp same]
      exact Or.inl ⟨rfl, rfl⟩
  | token member =>
      obtain ⟨node, rfl, label⟩ := List.map_eq_singleton_iff.mp same
      obtain ⟨token, rfl, rfl⟩ := Node.eq_leaf_of_label label
      exact Or.inr ⟨token, [], by simp [Node.tokens], member⟩
  | rule r =>
      obtain ⟨node, rfl, label⟩ := List.map_eq_singleton_iff.mp same
      simpa using rules node (by simp) r label
  | andThen _ _ ihFront ihBack =>
      obtain ⟨before, after, rfl, rfl, rfl⟩ := List.map_eq_append_iff.mp same
      rw [Forest.tokens_append]
      exact (ihFront (fun node member => rules node (List.mem_append_left _ member)) rfl).andThen
        (ihBack (fun node member => rules node (List.mem_append_right _ member)) rfl)
  | again _ _ ihRound ihRest =>
      obtain ⟨before, after, rfl, rfl, rfl⟩ := List.map_eq_append_iff.mp same
      rw [Forest.tokens_append]
      exact (ihRound (fun node member => rules node (List.mem_append_left _ member)) rfl).again
        (ihRest (fun node member => rules node (List.mem_append_right _ member)) rfl)
  | chosen _ ih =>
      rcases ih rules same with ⟨empty, can⟩ | ⟨token, rest, tokens, member⟩
      · exact Or.inl ⟨empty, by simp [nullable, can]⟩
      · exact Or.inr ⟨token, rest, tokens, List.mem_append_left _ member⟩
  | otherwise _ ih =>
      rcases ih rules same with ⟨empty, can⟩ | ⟨token, rest, tokens, member⟩
      · exact Or.inl ⟨empty, by simp [nullable, can]⟩
      · exact Or.inr ⟨token, rest, tokens, List.mem_append_right _ member⟩
  | noted _ ih => exact ih rules same

end Phrase

theorem Node.Derived.opens {node : Node} (derived : node.Derived) :
    ∀ rule, node.label = .rule rule → (Phrase.rule rule).Opens node.tokens := by
  induction derived with
  | leaf token =>
      intro rule label
      cases label
  | @branch rule children production _ ih =>
      intro r label
      cases label
      have spells := rule.body_spells_iff.mpr production
      rcases spells.opens ih with ⟨empty, can⟩ | ⟨token, rest, tokens, member⟩
      · exact Or.inl ⟨empty, rule.nullable_body.symm.trans can⟩
      · exact Or.inr ⟨token, rest, tokens, Rule.mem_first_of_body _ member⟩

theorem Phrase.Spells.opens_derived {phrase : Phrase} {nodes : List Node}
    (spells : phrase.Spells (nodes.map Node.label)) (derived : ∀ node ∈ nodes, node.Derived) :
    phrase.Opens (Forest.tokens nodes) :=
  spells.opens fun node member => (derived node member).opens

end Jack
