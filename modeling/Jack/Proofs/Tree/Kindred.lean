import Jack.Proofs.Tree.Calls
import Jack.Proofs.Tree.Likeness

/-!
# Trees whose tokens have the same kinds

If two trees are alike up to what stands in their tokens, then each is the other one with other tokens at
its leaves, and they have the same calls: in the same places, with as many arguments, and under the names
that stand there.
-/

namespace Jack

section

variable {same : Token → Token → Prop}

/-! ## Parts of trees that are alike -/

namespace Forest

theorem alike_iff_forall₂ {as bs : List Node} :
    Forest.Alike same as bs ↔ List.Forall₂ (Node.Alike same) as bs := by
  induction as generalizing bs with
  | nil => cases bs <;> simp [Forest.Alike]
  | cons a as ih => cases bs <;> simp [Forest.Alike, ih]

theorem alike_singleton {a b : Node} (alike : a.Alike same b) : Forest.Alike same [a] [b] := ⟨alike, trivial⟩

theorem Alike.append {front front' back back' : List Node} (first : Forest.Alike same front front')
    (second : Forest.Alike same back back') : Forest.Alike same (front ++ back) (front' ++ back') := by
  rw [alike_iff_forall₂] at first second ⊢
  exact List.rel_append first second

theorem Alike.of_append {front back nodes : List Node} (alike : Forest.Alike same (front ++ back) nodes) :
    ∃ front' back', nodes = front' ++ back' ∧ Forest.Alike same front front' ∧
      Forest.Alike same back back' := by
  induction front generalizing nodes with
  | nil => exact ⟨[], nodes, rfl, trivial, alike⟩
  | cons node front ih =>
      cases nodes with
      | nil => exact alike.elim
      | cons node' nodes =>
          obtain ⟨front', back', rfl, first, second⟩ := ih alike.2
          exact ⟨node' :: front', back', rfl, ⟨alike.1, first⟩, second⟩

end Forest

mutual

theorem Node.Alike.symm (symmetric : ∀ s t, same s t → same t s) : {a b : Node} → a.Alike same b →
    b.Alike same a
  | .leaf s, .leaf t, alike => symmetric s t alike
  | .branch _ _, .branch _ _, ⟨rules, alike⟩ => ⟨rules.symm, Forest.Alike.symm symmetric alike⟩

theorem Forest.Alike.symm (symmetric : ∀ s t, same s t → same t s) : {as bs : List Node} →
    Forest.Alike same as bs → Forest.Alike same bs as
  | [], [], _ => trivial
  | _ :: _, _ :: _, ⟨first, more⟩ => ⟨first.symm symmetric, Forest.Alike.symm symmetric more⟩

end

mutual

theorem Node.Alike.length_tokens : {a b : Node} → a.Alike same b → b.tokens.length = a.tokens.length
  | .leaf _, .leaf _, _ => rfl
  | .branch _ _, .branch _ _, ⟨_, alike⟩ => Forest.Alike.length_tokens alike

theorem Forest.Alike.length_tokens : {as bs : List Node} → Forest.Alike same as bs →
    (Forest.tokens bs).length = (Forest.tokens as).length
  | [], [], _ => rfl
  | _ :: _, _ :: _, ⟨first, more⟩ => by
      rw [Forest.tokens, Forest.tokens, List.length_append, List.length_append, first.length_tokens,
        Forest.Alike.length_tokens more]

end

/-! ## Other tokens at the leaves -/

mutual

/-- The tree with the given tokens at its leaves, from left to right. -/
def Node.withTokens (tokens : List Token) : Node → Node
  | .leaf token => .leaf (tokens.headD token)
  | .branch rule children => .branch rule (Forest.withTokens tokens children)

def Forest.withTokens (tokens : List Token) : List Node → List Node
  | [] => []
  | node :: rest => node.withTokens tokens :: Forest.withTokens (tokens.drop node.tokens.length) rest

end

mutual

theorem Node.Alike.withTokens : {a b : Node} → (rest : List Token) → a.Alike same b →
    a.withTokens (b.tokens ++ rest) = b
  | .leaf _, .leaf _, _, _ => rfl
  | .branch _ _, .branch _ _, rest, ⟨rules, alike⟩ => by
      rw [Node.withTokens, Node.tokens, Forest.Alike.withTokens rest alike, rules]

theorem Forest.Alike.withTokens : {as bs : List Node} → (rest : List Token) → Forest.Alike same as bs →
    Forest.withTokens (Forest.tokens bs ++ rest) as = bs
  | [], [], _, _ => rfl
  | _ :: _, _ :: _, rest, ⟨first, more⟩ => by
      rw [Forest.withTokens, Forest.tokens, List.append_assoc, first.withTokens, ← first.length_tokens,
        List.drop_left, Forest.Alike.withTokens rest more]

end

end

/-! ## The same kinds -/

def Token.Kindred (s t : Token) : Prop := t.kind = s.kind

abbrev Node.Kindred : Node → Node → Prop := Node.Alike Token.Kindred

abbrev Forest.Kindred : List Node → List Node → Prop := Forest.Alike Token.Kindred

theorem Node.Kindred.label {node node' : Node} (kindred : node.Kindred node') : node'.label = node.label := by
  cases node <;> cases node'
  case leaf.leaf => exact congrArg Label.token kindred
  case branch.branch => exact congrArg Label.rule kindred.1.symm
  all_goals exact kindred.elim

namespace Forest

variable {nodes nodes' : List Node}

theorem Kindred.symm (kindred : Kindred nodes nodes') : Kindred nodes' nodes :=
  Alike.symm (fun _ _ => Eq.symm) kindred

theorem Kindred.expressions (kindred : Kindred nodes nodes') : expressions nodes' = expressions nodes := by
  have labels : nodes'.map Node.label = nodes.map Node.label := by
    induction alike_iff_forall₂.mp kindred with
    | nil => rfl
    | cons first more ih =>
        rw [List.map_cons, List.map_cons, Node.Kindred.label first, ih (alike_iff_forall₂.mpr more)]
  rw [Forest.expressions, Forest.expressions, labels]

theorem Kindred.of_leaf {token : Token} (kindred : Kindred (.leaf token :: nodes) nodes') :
    ∃ token' rest, nodes' = .leaf token' :: rest ∧ token'.kind = token.kind ∧ Kindred nodes rest := by
  cases nodes' with
  | nil => exact kindred.elim
  | cons node rest =>
      cases node with
      | leaf token' => exact ⟨token', rest, rfl, kindred.1, kindred.2⟩
      | branch => exact kindred.1.elim

theorem Kindred.of_branch {rule : Rule} {children : List Node}
    (kindred : Kindred (.branch rule children :: nodes) nodes') :
    ∃ children' rest, nodes' = .branch rule children' :: rest ∧ Kindred children children' ∧
      Kindred nodes rest := by
  cases nodes' with
  | nil => exact kindred.elim
  | cons node rest =>
      cases node with
      | leaf => exact kindred.1.elim
      | branch rule' children' =>
          obtain ⟨⟨rfl, below⟩, more⟩ := kindred
          exact ⟨children', rest, rfl, below, more⟩

theorem Kindred.of_nil (kindred : Kindred [] nodes) : nodes = [] := by
  cases nodes with
  | nil => rfl
  | cons => exact kindred.elim

theorem EndsInReceiver.of_kindred (ends : EndsInReceiver nodes) (kindred : Kindred nodes nodes') :
    EndsInReceiver nodes' := by
  obtain ⟨before, receiver, dot, rfl, received, dotted⟩ := ends
  obtain ⟨before', _, rfl, _, last⟩ := Alike.of_append kindred
  obtain ⟨receiver', _, rfl, received', last⟩ := Kindred.of_leaf last
  obtain ⟨dot', _, rfl, dotted', last⟩ := Kindred.of_leaf last
  obtain rfl := Kindred.of_nil last
  exact ⟨before', receiver', dot', rfl, received'.trans received, dotted'.trans dotted⟩

theorem EndsInCall.of_kindred {first : Nat} {call : Call} (ends : EndsInCall nodes first call)
    (kindred : Kindred nodes nodes') :
    ∃ call', EndsInCall nodes' first call' ∧ call'.arity = call.arity := by
  cases ends with
  | direct plain named opens =>
      obtain ⟨before', _, rfl, earlier, last⟩ := Alike.of_append kindred
      obtain ⟨name', _, rfl, named', last⟩ := Kindred.of_leaf last
      obtain ⟨opening', _, rfl, opens', last⟩ := Kindred.of_leaf last
      obtain ⟨args', _, rfl, arguments, last⟩ := Kindred.of_branch last
      obtain rfl := Kindred.of_nil last
      have plain' : ¬ EndsInReceiver before' := fun ends => plain (ends.of_kindred (Kindred.symm earlier))
      rw [← Alike.length_tokens earlier]
      exact ⟨_, .direct plain' (named'.trans named) (opens'.trans opens),
        congrArg (· + 1) (Kindred.expressions arguments)⟩
  | qualified received dotted named opens =>
      obtain ⟨before', _, rfl, earlier, last⟩ := Alike.of_append kindred
      obtain ⟨receiver', _, rfl, received', last⟩ := Kindred.of_leaf last
      obtain ⟨dot', _, rfl, dotted', last⟩ := Kindred.of_leaf last
      obtain ⟨name', _, rfl, named', last⟩ := Kindred.of_leaf last
      obtain ⟨opening', _, rfl, opens', last⟩ := Kindred.of_leaf last
      obtain ⟨args', _, rfl, arguments, last⟩ := Kindred.of_branch last
      obtain rfl := Kindred.of_nil last
      rw [← Alike.length_tokens earlier]
      exact ⟨_, .qualified (received'.trans received) (dotted'.trans dotted) (named'.trans named)
        (opens'.trans opens), Kindred.expressions arguments⟩

-- Where one of them ends in no call, neither does the other, because the relation is symmetric.
theorem Kindred.callBefore? (kindred : Kindred nodes nodes') :
    Option.Rel (fun found found' => found'.1 = found.1 ∧ found'.2.arity = found.2.arity)
      (Forest.callBefore? nodes.reverse) (Forest.callBefore? nodes'.reverse) := by
  cases found : Forest.callBefore? nodes.reverse with
  | none =>
      cases found' : Forest.callBefore? nodes'.reverse with
      | none => exact .none
      | some ending =>
          obtain ⟨_, ends, _⟩ := (endsInCall_of_callBefore? found').of_kindred kindred.symm
          rw [ends.callBefore?] at found
          cases found
  | some ending =>
      obtain ⟨call', ends, arity⟩ := (endsInCall_of_callBefore? found).of_kindred kindred
      rw [ends.callBefore?]
      exact .some ⟨rfl, arity⟩

end Forest

/-- The places are the same, and so are the numbers of arguments. -/
def CallPlace.Matches (place place' : CallPlace) : Prop :=
  place'.first = place.first ∧ place'.call.arity = place.call.arity

theorem Forest.matches_closedBy {holds : Bool} {before before' : List Node} {node node' : Node}
    (earlier : Forest.Kindred before before') (kindred : node.Kindred node') :
    List.Forall₂ CallPlace.Matches (closedBy holds before node) (closedBy holds before' node') := by
  cases node <;> cases node'
  case branch.branch => exact .nil
  case leaf.leaf token token' =>
      have calls := Kindred.callBefore? earlier
      rw [closedBy, closedBy, show token'.kind = token.kind from kindred]
      split
      · generalize callBefore? before.reverse = found, callBefore? before'.reverse = found' at calls
        cases calls with
        | none => exact .nil
        | some same => exact .cons same .nil
      · exact .nil
  all_goals exact kindred.elim

mutual

theorem Node.Kindred.callPlaces : {a b : Node} → a.Kindred b →
    List.Forall₂ CallPlace.Matches a.callPlaces b.callPlaces
  | .leaf _, .leaf _, _ => .nil
  | .branch rule _, .branch _ _, ⟨rfl, kindred⟩ =>
      Forest.Kindred.callPlaces rule.holdsCalls (trivial : Forest.Kindred [] []) kindred

theorem Forest.Kindred.callPlaces (holds : Bool) : {before before' as bs : List Node} →
    Forest.Kindred before before' → Forest.Kindred as bs →
    List.Forall₂ CallPlace.Matches (Forest.callPlaces holds before as) (Forest.callPlaces holds before' bs)
  | _, _, [], [], _, _ => .nil
  | before, before', a :: as, b :: bs, earlier, ⟨first, more⟩ => by
      have below : List.Forall₂ CallPlace.Matches (a.callPlaces.map (.shift (Forest.tokens before).length))
          (b.callPlaces.map (.shift (Forest.tokens before').length)) := by
        rw [List.forall₂_map_left_iff, List.forall₂_map_right_iff, Forest.Alike.length_tokens earlier]
        exact (Node.Kindred.callPlaces first).imp fun _ _ same => ⟨congrArg (_ + ·) same.1, same.2⟩
      have later := Forest.Kindred.callPlaces holds (Forest.Alike.append earlier (Forest.alike_singleton first))
        more
      rw [Forest.callPlaces, Forest.callPlaces]
      exact List.rel_append (List.rel_append below (Forest.matches_closedBy earlier first)) later

end

/-! ## Where the names of calls stand -/

/-- The call is made in the source, at an identifier with so many tokens before it: this is its name, or its
receiver, and the call stands on the line of this token. -/
inductive Call.MadeAt : List Token → Nat → Call → Prop where
  | direct {before after : List Token} {name opening : Token} {arity : Nat} (named : name.kind = .ident)
      (opens : opening.kind = .symbol .lParen) :
      MadeAt (before ++ name :: opening :: after) before.length ⟨name.lexeme, name.line, arity⟩
  | qualified {before after : List Token} {receiver dot name opening : Token} {arity : Nat}
      (received : receiver.kind = .ident) (dotted : dot.kind = .symbol .dot) (named : name.kind = .ident)
      (opens : opening.kind = .symbol .lParen) :
      MadeAt (before ++ receiver :: dot :: name :: opening :: after) before.length
        ⟨receiver.lexeme ++ "." ++ name.lexeme, receiver.line, arity⟩

theorem Call.MadeAt.within {tokens : List Token} {first : Nat} {call : Call} (made : MadeAt tokens first call)
    (front back : List Token) : MadeAt (front ++ tokens ++ back) (front.length + first) call := by
  cases made with
  | @direct before after name opening _ named opens =>
      simpa using @direct (front ++ before) (after ++ back) _ _ _ named opens
  | @qualified before after receiver dot name opening _ received dotted named opens =>
      simpa using @qualified (front ++ before) (after ++ back) _ _ _ _ _ received dotted named opens

theorem Forest.EndsInCall.madeAt {nodes : List Node} {first : Nat} {call : Call}
    (ends : EndsInCall nodes first call) : call.MadeAt (Forest.tokens nodes) first := by
  cases ends with
  | @direct before args name opening _ named opens =>
      simpa [Forest.tokens, Node.tokens] using
        @Call.MadeAt.direct (Forest.tokens before) (Forest.tokens args) _ _ _ named opens
  | @qualified before args receiver dot name opening received dotted named opens =>
      simpa [Forest.tokens, Node.tokens] using
        @Call.MadeAt.qualified (Forest.tokens before) (Forest.tokens args) _ _ _ _ _ received dotted named opens

theorem Node.CallAt.madeAt {node : Node} {place : CallPlace} (stands : node.CallAt place) :
    place.call.MadeAt node.tokens place.first := by
  induction stands with
  | @closed _ before after closing first call _ ends _ =>
      simpa [Node.tokens, Forest.tokens] using ends.madeAt.within [] (closing :: Forest.tokens after)
  | @inside _ before after child place _ ih =>
      simpa [Node.tokens, Forest.tokens, CallPlace.shift] using
        ih.within (Forest.tokens before) (Forest.tokens after)

theorem Node.madeAt_calls {tree : Node} {tokens : List Token} (starts : tree.tokens <+: tokens) :
    List.Forall₂ (Call.MadeAt tokens) (tree.callPlaces.map CallPlace.first) tree.calls := by
  obtain ⟨rest, rfl⟩ := starts
  rw [Node.calls, List.forall₂_map_left_iff, List.forall₂_map_right_iff, List.forall₂_same]
  intro place member
  simpa using (Node.callAt_of_mem tree member).madeAt.within [] rest

namespace Node.Kindred

variable {tree tree' : Node}

theorem map_eq (kindred : tree.Kindred tree') {α : Type} (value : CallPlace → α)
    (same : ∀ place place', place.Matches place' → value place' = value place) :
    tree'.callPlaces.map value = tree.callPlaces.map value := by
  have values : List.Forall₂ (· = ·) (tree.callPlaces.map value) (tree'.callPlaces.map value) := by
    rw [List.forall₂_map_left_iff, List.forall₂_map_right_iff]
    exact (Node.Kindred.callPlaces kindred).imp fun place place' matched => (same place place' matched).symm
  rw [List.forall₂_eq_eq_eq] at values
  exact values.symm

theorem map_first (kindred : tree.Kindred tree') :
    tree'.callPlaces.map CallPlace.first = tree.callPlaces.map CallPlace.first :=
  map_eq kindred _ fun _ _ same => same.1

theorem map_arity (kindred : tree.Kindred tree') : tree'.calls.map Call.arity = tree.calls.map Call.arity := by
  rw [Node.calls, Node.calls, List.map_map, List.map_map]
  exact map_eq kindred _ fun _ _ same => same.2

end Node.Kindred

end Jack
