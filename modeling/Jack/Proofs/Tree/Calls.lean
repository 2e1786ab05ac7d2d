import Jack.Parse.Call
import Jack.Proofs.Grammar.Derivation

/-!
# The calls in a tree

A call stands in a term or a do statement: an identifier, or two with a dot between, and a list of
expressions in parentheses. The calls of a tree are listed by a walk over its tokens that notes a call when
it comes to the closing parenthesis, so that the calls among the arguments of a call are listed before it.
-/

namespace Jack

/-- A call and where it stands in a tree: how many tokens come before its leading identifier, and how many
before its closing parenthesis. -/
structure CallPlace where
  first : Nat
  close : Nat
  call : Call
deriving DecidableEq

def CallPlace.shift (offset : Nat) (place : CallPlace) : CallPlace :=
  ⟨offset + place.first, offset + place.close, place.call⟩

def Rule.holdsCalls : Rule → Bool
  | .term => true
  | .doStatement => true
  | _ => false

namespace Forest

/-- The number of expressions that stand directly below. -/
def expressions (nodes : List Node) : Nat := (nodes.map Node.label).count (.rule .expression)

theorem expressions_append (front back : List Node) :
    expressions (front ++ back) = expressions front + expressions back := by
  simp [expressions]

/-- The nodes end in a receiver and a dot. -/
def EndsInReceiver (nodes : List Node) : Prop :=
  ∃ before receiver dot, nodes = before ++ [.leaf receiver, .leaf dot] ∧ receiver.kind = .ident ∧
    dot.kind = .symbol .dot

/-- The nodes end in a call without its closing parenthesis, which begins after so many tokens. -/
inductive EndsInCall : List Node → Nat → Call → Prop where
  | direct {before args : List Node} {name opening : Token} (plain : ¬ EndsInReceiver before)
      (named : name.kind = .ident) (opens : opening.kind = .symbol .lParen) :
      EndsInCall (before ++ [.leaf name, .leaf opening, .branch .expressionList args])
        (Forest.tokens before).length ⟨name.lexeme, name.line, expressions args + 1⟩
  | qualified {before args : List Node} {receiver dot name opening : Token}
      (received : receiver.kind = .ident) (dotted : dot.kind = .symbol .dot) (named : name.kind = .ident)
      (opens : opening.kind = .symbol .lParen) :
      EndsInCall
        (before ++ [.leaf receiver, .leaf dot, .leaf name, .leaf opening, .branch .expressionList args])
        (Forest.tokens before).length
        ⟨receiver.lexeme ++ "." ++ name.lexeme, receiver.line, expressions args⟩

end Forest

/-- The call stands at this place in the tree. -/
inductive Node.CallAt : Node → CallPlace → Prop where
  | closed {rule : Rule} {before after : List Node} {closing : Token} {first : Nat} {call : Call}
      (holds : rule.holdsCalls = true) (ends : Forest.EndsInCall before first call)
      (closes : closing.kind = .symbol .rParen) :
      CallAt (.branch rule (before ++ .leaf closing :: after))
        ⟨first, (Forest.tokens before).length, call⟩
  | inside {rule : Rule} {before after : List Node} {child : Node} {place : CallPlace}
      (within : child.CallAt place) :
      CallAt (.branch rule (before ++ child :: after)) (place.shift (Forest.tokens before).length)

/-! ## Listing the calls -/

namespace Forest

-- Both functions look back from a node: the nodes before it are given from the nearest to the farthest.
def receiverBefore? : List Node → Option (Token × List Node)
  | .leaf dot :: .leaf receiver :: before =>
    if receiver.kind = .ident ∧ dot.kind = .symbol .dot then some (receiver, before) else none
  | _ => none

def callBefore? : List Node → Option (Nat × Call)
  | .branch .expressionList args :: .leaf opening :: .leaf name :: before =>
    if name.kind = .ident ∧ opening.kind = .symbol .lParen then
      match receiverBefore? before with
      | some (receiver, before) =>
        some ((Forest.tokens before.reverse).length,
          ⟨receiver.lexeme ++ "." ++ name.lexeme, receiver.line, expressions args⟩)
      | none =>
        some ((Forest.tokens before.reverse).length, ⟨name.lexeme, name.line, expressions args + 1⟩)
    else none
  | _ => none

/-- The call that the node closes, if the nodes before it end in one. -/
def closedBy (holds : Bool) (before : List Node) : Node → List CallPlace
  | .leaf token =>
    if holds ∧ token.kind = .symbol .rParen then
      (callBefore? before.reverse).toList.map fun (first, call) =>
        ⟨first, (Forest.tokens before).length, call⟩
    else []
  | .branch _ _ => []

end Forest

mutual

def Node.callPlaces : Node → List CallPlace
  | .leaf _ => []
  | .branch rule children => Forest.callPlaces rule.holdsCalls [] children

def Forest.callPlaces (holds : Bool) (before : List Node) : List Node → List CallPlace
  | [] => []
  | node :: rest =>
    node.callPlaces.map (.shift (Forest.tokens before).length) ++ Forest.closedBy holds before node ++
      Forest.callPlaces holds (before ++ [node]) rest

end

def Node.calls (node : Node) : List Call := node.callPlaces.map CallPlace.call

/-! ## The list is complete and in order -/

namespace Forest

theorem receiverBefore?_eq_some_iff {nodes before : List Node} {receiver : Token} :
    receiverBefore? nodes = some (receiver, before) ↔ ∃ dot, nodes = .leaf dot :: .leaf receiver :: before ∧
      receiver.kind = .ident ∧ dot.kind = .symbol .dot := by
  unfold receiverBefore?
  split
  · rename_i dot receiver' before'
    constructor
    · intro found
      split at found
      · rename_i kinds
        cases found
        exact ⟨dot, rfl, kinds⟩
      · cases found
    · rintro ⟨_, same, kinds⟩
      cases same
      rw [if_pos kinds]
  · rename_i other
    constructor
    · intro found
      cases found
    · rintro ⟨dot, rfl, _⟩
      exact absurd rfl (other dot receiver before)

theorem receiverBefore?_eq_none_iff {nodes : List Node} :
    receiverBefore? nodes = none ↔ ¬ EndsInReceiver nodes.reverse := by
  rw [Option.eq_none_iff_forall_ne_some]
  constructor
  · rintro none ⟨before, receiver, dot, same, kinds⟩
    apply none (receiver, before.reverse)
    rw [receiverBefore?_eq_some_iff]
    refine ⟨dot, ?_, kinds⟩
    rw [← List.reverse_reverse nodes, same]
    simp
  · rintro plain ⟨receiver, before⟩ found
    obtain ⟨dot, rfl, kinds⟩ := receiverBefore?_eq_some_iff.mp found
    exact plain ⟨before.reverse, receiver, dot, by simp, kinds⟩

theorem endsInCall_of_callBefore? {nodes : List Node} {first : Nat} {call : Call}
    (found : callBefore? nodes.reverse = some (first, call)) : EndsInCall nodes first call := by
  rw [← List.reverse_reverse nodes]
  generalize nodes.reverse = backwards at found
  unfold callBefore? at found
  split at found
  · rename_i args opening name before
    split at found
    · rename_i kinds
      split at found
      · rename_i receiver before' qualified
        cases found
        obtain ⟨dot, rfl, received, dotted⟩ := receiverBefore?_eq_some_iff.mp qualified
        simpa using @EndsInCall.qualified before'.reverse args _ _ _ _ received dotted kinds.1 kinds.2
      · rename_i plain
        cases found
        simpa using @EndsInCall.direct before.reverse args _ _ (receiverBefore?_eq_none_iff.mp plain)
          kinds.1 kinds.2
    · cases found
  · cases found

theorem EndsInCall.callBefore? {nodes : List Node} {first : Nat} {call : Call}
    (ends : EndsInCall nodes first call) : callBefore? nodes.reverse = some (first, call) := by
  cases ends with
  | @direct before args name opening plain named opens =>
      have none : receiverBefore? before.reverse = none := by
        rw [receiverBefore?_eq_none_iff, List.reverse_reverse]
        exact plain
      simp [Forest.callBefore?, named, opens, none]
  | @qualified before args receiver dot name opening received dotted named opens =>
      have some : receiverBefore? (.leaf dot :: .leaf receiver :: before.reverse) =
          some (receiver, before.reverse) :=
        receiverBefore?_eq_some_iff.mpr ⟨dot, rfl, received, dotted⟩
      simp [Forest.callBefore?, named, opens, some]

theorem mem_closedBy_iff {holds : Bool} {before : List Node} {node : Node} {place : CallPlace} :
    place ∈ closedBy holds before node ↔ holds = true ∧ ∃ closing : Token, node = .leaf closing ∧
      closing.kind = .symbol .rParen ∧ EndsInCall before place.first place.call ∧
      place.close = (Forest.tokens before).length := by
  cases node with
  | branch rule children => simp [closedBy]
  | leaf token =>
      rw [closedBy]
      split
      · rename_i closes
        simp only [List.mem_map, Option.mem_toList, Prod.exists]
        constructor
        · rintro ⟨first, call, found, rfl⟩
          exact ⟨closes.1, token, rfl, closes.2, endsInCall_of_callBefore? found, rfl⟩
        · rintro ⟨_, _, _, _, ends, close⟩
          exact ⟨place.first, place.call, ends.callBefore?, by rw [← close]⟩
      · rename_i other
        constructor
        · intro member
          cases member
        · rintro ⟨holds, closing, same, kind, _⟩
          cases same
          exact absurd ⟨holds, kind⟩ other

theorem mem_callPlaces_iff {holds : Bool} {before nodes : List Node} {place : CallPlace} :
    place ∈ Forest.callPlaces holds before nodes ↔ ∃ front node back, nodes = front ++ node :: back ∧
      (place ∈ node.callPlaces.map (.shift (Forest.tokens (before ++ front)).length) ∨
        place ∈ closedBy holds (before ++ front) node) := by
  induction nodes generalizing before with
  | nil => simp [Forest.callPlaces]
  | cons first rest ih =>
      rw [Forest.callPlaces, List.mem_append, List.mem_append, ih]
      constructor
      · rintro (here | ⟨front, node, back, rfl, member⟩)
        · exact ⟨[], first, rest, rfl, by simpa using here⟩
        · exact ⟨first :: front, node, back, rfl, by simpa using member⟩
      · rintro ⟨front, node, back, split, member⟩
        cases front with
        | nil =>
            cases split
            exact Or.inl (by simpa using member)
        | cons head front =>
            cases split
            exact Or.inr ⟨front, node, back, rfl, by simpa using member⟩

end Forest

mutual

theorem Node.callAt_of_mem : (node : Node) → {place : CallPlace} → place ∈ node.callPlaces →
    node.CallAt place
  | .leaf token, place, member => by cases member
  | .branch rule children, place, member => by
      rw [Node.callPlaces] at member
      obtain ⟨front, child, back, split, inner | closed⟩ := Forest.mem_callPlaces_iff.mp member
      · obtain ⟨place', member', rfl⟩ := List.mem_map.mp inner
        have below := Forest.callAt_of_mem children (by simp [split]) member'
        rw [split]
        exact .inside below
      · obtain ⟨holds, closing, rfl, closes, ends, close⟩ := Forest.mem_closedBy_iff.mp closed
        obtain ⟨first, _, call⟩ := place
        cases close
        rw [split]
        exact .closed holds ends closes

theorem Forest.callAt_of_mem : (nodes : List Node) → {node : Node} → {place : CallPlace} →
    node ∈ nodes → place ∈ node.callPlaces → node.CallAt place
  | first :: rest, node, place, within, member => by
      rcases List.mem_cons.mp within with same | later
      · rw [same] at member ⊢
        exact Node.callAt_of_mem first member
      · exact Forest.callAt_of_mem rest later member

end

theorem Node.mem_callPlaces_iff {node : Node} {place : CallPlace} :
    place ∈ node.callPlaces ↔ node.CallAt place := by
  constructor
  · exact node.callAt_of_mem
  · intro stands
    induction stands with
    | closed holds ends closes =>
        rw [Node.callPlaces, Forest.mem_callPlaces_iff]
        exact ⟨_, _, _, rfl, Or.inr (Forest.mem_closedBy_iff.mpr ⟨holds, _, rfl, closes, ends, rfl⟩)⟩
    | inside _ ih =>
        rw [Node.callPlaces, Forest.mem_callPlaces_iff]
        exact ⟨_, _, _, rfl, Or.inl (List.mem_map.mpr ⟨_, ih, rfl⟩)⟩

theorem Node.CallAt.close_lt {node : Node} {place : CallPlace} (stands : node.CallAt place) :
    place.close < node.tokens.length := by
  induction stands with
  | closed holds ends closes => simp [Node.tokens, Forest.tokens]
  | inside _ ih =>
      simp only [CallPlace.shift, Node.tokens, Forest.tokens, Forest.tokens_append, List.length_append]
      omega

namespace Forest

theorem le_close_of_mem {holds : Bool} {before nodes : List Node} {place : CallPlace}
    (member : place ∈ Forest.callPlaces holds before nodes) : (Forest.tokens before).length ≤ place.close := by
  obtain ⟨front, node, back, rfl, inner | closed⟩ := mem_callPlaces_iff.mp member
  · obtain ⟨place', _, rfl⟩ := List.mem_map.mp inner
    simp only [CallPlace.shift, Forest.tokens_append, List.length_append]
    omega
  · obtain ⟨_, _, _, _, _, close⟩ := mem_closedBy_iff.mp closed
    simp [close]

theorem pairwise_closedBy (holds : Bool) (before : List Node) (node : Node) :
    (closedBy holds before node).Pairwise (fun a b => a.close < b.close) := by
  cases node with
  | branch rule children => exact .nil
  | leaf token =>
      rw [closedBy]
      split
      · cases callBefore? before.reverse <;> simp
      · exact .nil

end Forest

mutual

theorem Node.pairwise_callPlaces : (node : Node) →
    node.callPlaces.Pairwise (fun a b => a.close < b.close)
  | .leaf _ => .nil
  | .branch rule children => Forest.pairwise_callPlaces rule.holdsCalls [] children

theorem Forest.pairwise_callPlaces (holds : Bool) : (before nodes : List Node) →
    (Forest.callPlaces holds before nodes).Pairwise (fun a b => a.close < b.close)
  | before, [] => .nil
  | before, node :: rest => by
      have below : (node.callPlaces.map (CallPlace.shift (Forest.tokens before).length)).Pairwise
          (fun a b => a.close < b.close) := by
        rw [List.pairwise_map]
        exact (Node.pairwise_callPlaces node).imp (fun lt => Nat.add_lt_add_left lt _)
      rw [Forest.callPlaces, List.pairwise_append, List.pairwise_append]
      refine ⟨⟨below, Forest.pairwise_closedBy holds before node, ?_⟩,
        Forest.pairwise_callPlaces holds (before ++ [node]) rest, ?_⟩
      · -- A node that closes a call is a leaf, with no calls below it.
        intro a inner b closed
        obtain ⟨_, closing, rfl, _⟩ := Forest.mem_closedBy_iff.mp closed
        cases inner
      · intro a earlier b later
        have bound := Forest.le_close_of_mem later
        rw [Forest.tokens_append, Forest.tokens_singleton, List.length_append] at bound
        rcases List.mem_append.mp earlier with inner | closed
        · obtain ⟨place, member, rfl⟩ := List.mem_map.mp inner
          have inside := (Node.callAt_of_mem node member).close_lt
          simp only [CallPlace.shift]
          omega
        · obtain ⟨_, closing, rfl, _, _, close⟩ := Forest.mem_closedBy_iff.mp closed
          simp only [Node.tokens, List.length_cons, List.length_nil] at bound
          omega

end

/-- The list has every call of the tree once, in the order of their closing parentheses. -/
structure Node.ListsCalls (tree : Node) (calls : List Call) : Prop where
  listed : calls = tree.callPlaces.map CallPlace.call
  ordered : tree.callPlaces.Pairwise (fun a b => a.close < b.close)
  complete : ∀ place, place ∈ tree.callPlaces ↔ tree.CallAt place

theorem Node.listsCalls_calls (tree : Node) : tree.ListsCalls tree.calls :=
  ⟨rfl, tree.pairwise_callPlaces, fun _ => Node.mem_callPlaces_iff⟩

end Jack
