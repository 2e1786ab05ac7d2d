import Jack.Proofs.Grammar.Spelling
import Jack.Proofs.Tree.Calls

/-!
# The calls in derivation trees

The grammar has lists of arguments in calls only. So each branch of a derivation tree either closes no call
or is the term or the do statement of one call, and a derivation tree has as many calls as it has lists of
arguments.
-/

namespace Jack

open Grammar

def Forest.calls (nodes : List Node) : List Call := nodes.flatMap Node.calls

theorem Forest.calls_singleton (node : Node) : Forest.calls [node] = node.calls := List.flatMap_singleton _ _

namespace Forest

/-! ## Calls below a branch and calls that it closes -/

theorem mem_label_of_endsInCall {nodes : List Node} {first : Nat} {call : Call}
    (ends : EndsInCall nodes first call) : .rule .expressionList ∈ nodes.map Node.label := by
  cases ends <;> simp [Node.label]

theorem callPlaces_append (holds : Bool) (before front back : List Node) :
    Forest.callPlaces holds before (front ++ back) =
      Forest.callPlaces holds before front ++ Forest.callPlaces holds (before ++ front) back := by
  induction front generalizing before with
  | nil => simp [Forest.callPlaces]
  | cons node front ih => simp [Forest.callPlaces, ih]

theorem map_call_of_closedBy {holds : Bool} {before nodes : List Node}
    (nothing : ∀ front node back, nodes = front ++ node :: back → closedBy holds (before ++ front) node = []) :
    (Forest.callPlaces holds before nodes).map CallPlace.call = Forest.calls nodes := by
  induction nodes generalizing before with
  | nil => rfl
  | cons node rest ih =>
      have here := nothing [] node rest rfl
      have later : (Forest.callPlaces holds (before ++ [node]) rest).map CallPlace.call =
          Forest.calls rest := by
        apply ih
        intro front next back split
        have there := nothing (node :: front) next back (by rw [split]; rfl)
        simpa using there
      rw [List.append_nil] at here
      simp only [Forest.callPlaces, here, List.append_nil, List.map_append, later, List.map_map]
      rfl

theorem map_call_of_no_list {holds : Bool} {nodes : List Node}
    (free : .rule .expressionList ∉ nodes.map Node.label) :
    (Forest.callPlaces holds [] nodes).map CallPlace.call = Forest.calls nodes := by
  apply map_call_of_closedBy
  intro front node back split
  apply List.eq_nil_iff_forall_not_mem.mpr
  intro place member
  obtain ⟨_, _, _, _, ends, _⟩ := mem_closedBy_iff.mp member
  apply free
  rw [split, List.map_append]
  exact List.mem_append_left _ (mem_label_of_endsInCall ends)

theorem map_call_of_no_parenthesis {holds : Bool} {before nodes : List Node}
    (free : sign .rParen ∉ nodes.map Node.label) :
    (Forest.callPlaces holds before nodes).map CallPlace.call = Forest.calls nodes := by
  apply map_call_of_closedBy
  intro front node back split
  apply List.eq_nil_iff_forall_not_mem.mpr
  intro place member
  obtain ⟨_, closing, rfl, closes, _⟩ := mem_closedBy_iff.mp member
  apply free
  simp [split, Node.label, closes]

theorem map_call_of_endsInCall {before nodes : List Node} {first : Nat} {call : Call} {closing : Token}
    (ends : EndsInCall (before ++ nodes) first call) (free : sign .rParen ∉ nodes.map Node.label)
    (closes : closing.kind = .symbol .rParen) :
    (Forest.callPlaces true before (nodes ++ [.leaf closing])).map CallPlace.call =
      Forest.calls (nodes ++ [.leaf closing]) ++ [call] := by
  rw [callPlaces_append, List.map_append, map_call_of_no_parenthesis free]
  simp [Forest.callPlaces, Forest.calls, closedBy, closes, -List.reverse_append, ends.callBefore?,
    Node.callPlaces, Node.calls]

/-- The nodes make up the call. -/
inductive IsCall : List Node → Call → Prop where
  | direct {name opening closing : Token} (args : List Node) (named : name.kind = .ident)
      (opens : opening.kind = .symbol .lParen) (closes : closing.kind = .symbol .rParen) :
      IsCall [.leaf name, .leaf opening, .branch .expressionList args, .leaf closing]
        ⟨name.lexeme, name.line, expressions args + 1⟩
  | qualified {receiver dot name opening closing : Token} (args : List Node)
      (received : receiver.kind = .ident) (dotted : dot.kind = .symbol .dot) (named : name.kind = .ident)
      (opens : opening.kind = .symbol .lParen) (closes : closing.kind = .symbol .rParen) :
      IsCall [.leaf receiver, .leaf dot, .leaf name, .leaf opening, .branch .expressionList args,
          .leaf closing]
        ⟨receiver.lexeme ++ "." ++ name.lexeme, receiver.line, expressions args⟩

theorem exists_isCall {nodes : List Node} {labels : List Label} (made : SubroutineCall labels)
    (spelled : nodes.map Node.label = Grammar.name :: labels) : ∃ call, IsCall nodes call := by
  cases made with
  | direct =>
      simp only [List.map_eq_cons_iff, List.map_eq_nil_iff] at spelled
      obtain ⟨_, _, rfl, first, _, _, rfl, second, _, _, rfl, third, _, _, rfl, fourth, rfl⟩ := spelled
      obtain ⟨name, named, rfl⟩ := Node.eq_leaf_of_label first
      obtain ⟨opening, opens, rfl⟩ := Node.eq_leaf_of_label second
      obtain ⟨args, rfl⟩ := Node.eq_branch_of_label third
      obtain ⟨closing, closes, rfl⟩ := Node.eq_leaf_of_label fourth
      exact ⟨_, .direct args named opens closes⟩
  | qualified =>
      simp only [List.map_eq_cons_iff, List.map_eq_nil_iff] at spelled
      obtain ⟨_, _, rfl, zeroth, _, _, rfl, between, _, _, rfl, first, _, _, rfl, second, _, _, rfl, third,
        _, _, rfl, fourth, rfl⟩ := spelled
      obtain ⟨receiver, received, rfl⟩ := Node.eq_leaf_of_label zeroth
      obtain ⟨dot, dotted, rfl⟩ := Node.eq_leaf_of_label between
      obtain ⟨name, named, rfl⟩ := Node.eq_leaf_of_label first
      obtain ⟨opening, opens, rfl⟩ := Node.eq_leaf_of_label second
      obtain ⟨args, rfl⟩ := Node.eq_branch_of_label third
      obtain ⟨closing, closes, rfl⟩ := Node.eq_leaf_of_label fourth
      exact ⟨_, .qualified args received dotted named opens closes⟩

-- The nodes of a call close this call, wherever they stand, and no other one.
theorem map_call_of_isCall {before nodes : List Node} {call : Call} (plain : ¬ EndsInReceiver before)
    (made : IsCall nodes call) :
    (Forest.callPlaces true before nodes).map CallPlace.call = Forest.calls nodes ++ [call] := by
  cases made with
  | direct args named opens closes =>
      exact map_call_of_endsInCall (@EndsInCall.direct before args _ _ plain named opens)
        (by simp [Node.label, named, opens]) closes
  | qualified args received dotted named opens closes =>
      exact map_call_of_endsInCall (@EndsInCall.qualified before args _ _ _ _ received dotted named opens)
        (by simp [Node.label, received, dotted, named, opens]) closes

end Forest

namespace Phrase

def rulesRead : Phrase → List Rule
  | .nothing => []
  | .refuse _ => []
  | .token _ => []
  | .rule r => [r]
  | .andThen front back => front.rulesRead ++ back.rulesRead
  | .choose _ chosen otherwise => chosen.rulesRead ++ otherwise.rulesRead
  | .many _ round => round.rulesRead
  | .noted _ body => body.rulesRead

theorem Spells.mem_rulesRead {phrase : Phrase} {labels : List Label} {r : Rule}
    (spells : phrase.Spells labels) (member : .rule r ∈ labels) : r ∈ phrase.rulesRead := by
  induction spells with
  | nothing | token | done => simp at member
  | rule => simpa [rulesRead] using member
  | andThen _ _ ihFirst ihSecond =>
      rcases List.mem_append.mp member with before | after
      · exact List.mem_append_left _ (ihFirst before)
      · exact List.mem_append_right _ (ihSecond after)
  | chosen _ ih => exact List.mem_append_left _ (ih member)
  | otherwise _ ih => exact List.mem_append_right _ (ih member)
  | again _ _ ihFirst ihRest =>
      rcases List.mem_append.mp member with before | after
      · exact ihFirst before
      · exact ihRest after
  | noted _ ih => exact ih member

end Phrase

/-! ## Branches -/

theorem Rule.list_not_mem_rulesRead {rule : Rule} (plain : rule.holdsCalls = false) :
    .expressionList ∉ rule.body.rulesRead := by
  revert plain
  cases rule <;> decide

namespace Node

theorem calls_branch_of_no_list {children : List Node} (rule : Rule)
    (free : .rule .expressionList ∉ children.map Node.label) :
    (Node.branch rule children).calls = Forest.calls children := by
  rw [Node.calls, Node.callPlaces]
  exact Forest.map_call_of_no_list free

theorem calls_term {nodes : List Node} {call : Call} (made : Forest.IsCall nodes call) :
    (Node.branch .term nodes).calls = Forest.calls nodes ++ [call] := by
  have plain : ¬ Forest.EndsInReceiver [] := by
    rintro ⟨before, receiver, dot, same, _⟩
    simp at same
  exact Forest.map_call_of_isCall plain made

theorem calls_doStatement {nodes : List Node} {call : Call} (made : Forest.IsCall nodes call)
    {word mark : Token} (ending : mark.kind = .symbol .semicolon) :
    (Node.branch .doStatement (.leaf word :: (nodes ++ [.leaf mark]))).calls =
      Forest.calls nodes ++ [call] := by
  have plain : ¬ Forest.EndsInReceiver [.leaf word] := by
    rintro ⟨before, receiver, dot, same, _⟩
    cases before <;> simp at same
  have first : (Forest.callPlaces true [] [.leaf word]).map CallPlace.call = [] :=
    Forest.map_call_of_no_list (by simp [Node.label])
  have scanned := Forest.map_call_of_isCall plain made
  have last : (Forest.callPlaces true ([.leaf word] ++ nodes) [.leaf mark]).map CallPlace.call = [] :=
    Forest.map_call_of_no_parenthesis (by simp [Node.label, ending])
  change (Forest.callPlaces true [] ([.leaf word] ++ (nodes ++ [.leaf mark]))).map CallPlace.call = _
  rw [Forest.callPlaces_append, Forest.callPlaces_append, List.map_append, List.map_append, List.nil_append,
    first, scanned, last, List.append_nil, List.nil_append]

/-! ## One call for each list of arguments -/

theorem length_calls_branch {rule : Rule} {children : List Node}
    (production : Production rule (children.map Node.label)) :
    (Node.branch rule children).calls.length =
      (Forest.calls children).length + (children.map Node.label).count (.rule .expressionList) := by
  by_cases member : .rule .expressionList ∈ children.map Node.label
  · have holds : rule.holdsCalls = true := by
      rw [← Bool.not_eq_false]
      intro plain
      exact Rule.list_not_mem_rulesRead plain ((rule.body_spells_iff.mpr production).mem_rulesRead member)
    generalize spelled : children.map Node.label = labels at production member ⊢
    cases production with
    | doCall made =>
        obtain ⟨front, back, rfl, front', back'⟩ := List.map_eq_append_iff.mp spelled
        obtain ⟨_, nodes, rfl, first, spelled'⟩ := List.map_eq_cons_iff.mp front'
        obtain ⟨_, rfl, last⟩ := List.map_eq_singleton_iff.mp back'
        obtain ⟨word, _, rfl⟩ := Node.eq_leaf_of_label first
        obtain ⟨mark, ending, rfl⟩ := Node.eq_leaf_of_label last
        obtain ⟨call, read⟩ := Forest.exists_isCall made spelled'
        have others : Forest.calls (.leaf word :: (nodes ++ [.leaf mark])) = Forest.calls nodes := by
          simp [Forest.calls, Node.calls, Node.callPlaces]
        rw [List.cons_append, calls_doStatement read ending, others, List.length_append]
        cases made <;> rfl
    | call made =>
        obtain ⟨call, read⟩ := Forest.exists_isCall made spelled
        rw [calls_term read, List.length_append]
        cases made <;> rfl
    | keyword constant =>
        rw [← List.mem_singleton.mp member] at constant
        exact absurd constant (by decide)
    | unary leads =>
        have operator := by simpa using member
        rw [← operator] at leads
        exact absurd leads (by decide)
    | integer | string | variableName | element | parentheses => simp at member
    | _ => cases holds
  · rw [calls_branch_of_no_list rule member, List.count_eq_zero_of_not_mem member, Nat.add_zero]

theorem Derived.length_findAll_list {node : Node} (derived : node.Derived) :
    (node.findAll .expressionList).length =
      node.calls.length + if node.label = .rule .expressionList then 1 else 0 := by
  induction derived with
  | leaf token => rfl
  | @branch rule children production below ih =>
      have lists : (Forest.findAll .expressionList children).length =
          (Forest.calls children).length + (children.map Node.label).count (.rule .expressionList) := by
        clear production below
        induction children with
        | nil => rfl
        | cons child rest ih' =>
            have here := ih child List.mem_cons_self
            have later := ih' fun node member => ih node (List.mem_cons_of_mem _ member)
            simp only [Forest.findAll, Forest.calls, List.flatMap_cons, List.length_append, List.map_cons,
              List.count_cons, beq_iff_eq] at later ⊢
            omega
      rw [length_calls_branch production, Node.findAll]
      by_cases same : rule = .expressionList
      · simp [same, lists, Node.label]
      · simp [same, lists, Node.label]

end Node

end Jack
