import Jack.Trace

/-!
# Levels of a trace

How many markers are open along a trace, and where a trace first opens more of them than there is room for.
-/

namespace Jack

namespace Trace

def Item.token? : Item → Option Token
  | .token t => some t
  | _ => none

def tokens (items : List Item) : List Token := items.filterMap Item.token?

/-- The number of open markers after an item, from the number before it. -/
def Item.levelAfter (level : Nat) : Item → Nat
  | .opening _ => level + 1
  | .closing _ => level - 1
  | .token _ => level

def levelFrom (level : Nat) (items : List Item) : Nat := items.foldl Item.levelAfter level

/-- The number of markers that are open after some items. -/
def level (items : List Item) : Nat := levelFrom 0 items

/-- `before` is what precedes the first opening marker whose nesting level is `height`. -/
structure FirstAtLevel (height : Nat) (items before : List Item) : Prop where
  opens : ∃ rule after, items = before ++ .opening rule :: after ∧
    level (before ++ [.opening rule]) = height
  first : ∀ earlier rule, earlier ++ [.opening rule] <+: before →
    level (earlier ++ [.opening rule]) ≠ height

/-- The items before the first opening marker for which there is no room. -/
def upTo : (room : Nat) → List Item → List Item
  | _, [] => []
  | 0, .opening _ :: _ => []
  | room + 1, .opening rule :: rest => .opening rule :: upTo room rest
  | room, .closing rule :: rest => .closing rule :: upTo (room + 1) rest
  | room, .token token :: rest => .token token :: upTo room rest

@[simp] theorem tokens_append (front back : List Item) :
    tokens (front ++ back) = tokens front ++ tokens back :=
  List.filterMap_append

@[simp] theorem tokens_opening (rule : Rule) (rest : List Item) :
    tokens (.opening rule :: rest) = tokens rest := rfl

@[simp] theorem tokens_closing (rule : Rule) (rest : List Item) :
    tokens (.closing rule :: rest) = tokens rest := rfl

@[simp] theorem tokens_nil : tokens [] = [] := rfl

@[simp] theorem upTo_closing (room : Nat) (rule : Rule) (rest : List Item) :
    upTo room (.closing rule :: rest) = .closing rule :: upTo (room + 1) rest := by
  cases room <;> rfl

@[simp] theorem upTo_token (room : Nat) (token : Token) (rest : List Item) :
    upTo room (.token token :: rest) = .token token :: upTo room rest := by
  cases room <;> rfl

end Trace

open Trace

/-! ## Traces of trees -/

mutual

theorem Node.tokens_trace : (node : Node) → Trace.tokens node.trace = node.tokens
  | .leaf token => rfl
  | .branch rule children => by
      simp [Node.trace, Node.tokens, Forest.tokens_trace children]

theorem Forest.tokens_trace : (nodes : List Node) → Trace.tokens (Forest.trace nodes) = Forest.tokens nodes
  | [] => rfl
  | node :: rest => by
      simp [Forest.trace, Forest.tokens, Node.tokens_trace node, Forest.tokens_trace rest]

end

mutual

theorem Node.balancedFrom_trace : (node : Node) → (pending : List Rule) → (rest : List Item) →
    balancedFrom pending (node.trace ++ rest) = balancedFrom pending rest
  | .leaf token, pending, rest => by cases pending <;> rfl
  | .branch rule children, pending, rest => by
      simp [Node.trace, balancedFrom, Forest.balancedFrom_trace children]

theorem Forest.balancedFrom_trace : (nodes : List Node) → (pending : List Rule) → (rest : List Item) →
    balancedFrom pending (Forest.trace nodes ++ rest) = balancedFrom pending rest
  | [], _, _ => rfl
  | node :: more, pending, rest => by
      simp [Forest.trace, Node.balancedFrom_trace node, Forest.balancedFrom_trace more]

end

theorem Node.balanced_trace (node : Node) : Trace.balanced node.trace = true := by
  simpa [balanced, balancedFrom] using node.balancedFrom_trace [] []

mutual

theorem Node.upTo_trace_of_depth_le : (node : Node) → (room : Nat) → node.depth ≤ room →
    (more : List Item) → upTo room (node.trace ++ more) = node.trace ++ upTo room more
  | .leaf token, room, _, more => by simp [Node.trace]
  | .branch rule children, 0, fits, more => by simp [Node.depth] at fits
  | .branch rule children, room + 1, fits, more => by
      have below : Forest.depth children ≤ room := by simpa [Node.depth] using fits
      simp [Node.trace, upTo, Forest.upTo_trace_of_depth_le children room below]

theorem Forest.upTo_trace_of_depth_le : (nodes : List Node) → (room : Nat) →
    Forest.depth nodes ≤ room → (more : List Item) →
    upTo room (Forest.trace nodes ++ more) = Forest.trace nodes ++ upTo room more
  | [], _, _, _ => rfl
  | node :: rest, room, fits, more => by
      have both : node.depth ≤ room ∧ Forest.depth rest ≤ room := by
        simpa [Forest.depth, Nat.max_le] using fits
      simp [Forest.trace, Node.upTo_trace_of_depth_le node room both.1,
        Forest.upTo_trace_of_depth_le rest room both.2]

end

mutual

theorem Node.upTo_trace_of_lt_depth : (node : Node) → (room : Nat) → room < node.depth →
    (more : List Item) → upTo room (node.trace ++ more) = upTo room node.trace
  | .leaf token, _, deep, _ => by simp [Node.depth] at deep
  | .branch rule children, 0, _, _ => rfl
  | .branch rule children, room + 1, deep, more => by
      have below : room < Forest.depth children := by simpa [Node.depth] using deep
      simp [Node.trace, upTo, Forest.upTo_trace_of_lt_depth children room below]

theorem Forest.upTo_trace_of_lt_depth : (nodes : List Node) → (room : Nat) →
    room < Forest.depth nodes → (more : List Item) →
    upTo room (Forest.trace nodes ++ more) = upTo room (Forest.trace nodes)
  | [], _, deep, _ => by simp [Forest.depth] at deep
  | node :: rest, room, deep, more => by
      by_cases fits : node.depth ≤ room
      · have later : room < Forest.depth rest := by
          simp only [Forest.depth] at deep
          omega
        simp [Forest.trace, Node.upTo_trace_of_depth_le node room fits,
          Forest.upTo_trace_of_lt_depth rest room later]
      · have here : room < node.depth := by omega
        simp [Forest.trace, Node.upTo_trace_of_lt_depth node room here]

end

mutual

theorem Node.length_upTo_trace_lt : (node : Node) → (room : Nat) → room < node.depth →
    (upTo room node.trace).length < node.trace.length
  | .leaf token, _, deep => by simp [Node.depth] at deep
  | .branch rule children, 0, _ => by simp [Node.trace, upTo]
  | .branch rule children, room + 1, deep => by
      have below : room < Forest.depth children := by simpa [Node.depth] using deep
      have shorter := Forest.length_upTo_trace_lt children room below
      simp only [Node.trace, List.cons_append, upTo, Forest.upTo_trace_of_lt_depth children room below,
        List.length_cons, List.length_append]
      omega

theorem Forest.length_upTo_trace_lt : (nodes : List Node) → (room : Nat) → room < Forest.depth nodes →
    (upTo room (Forest.trace nodes)).length < (Forest.trace nodes).length
  | [], _, deep => by simp [Forest.depth] at deep
  | node :: rest, room, deep => by
      simp only [Forest.depth] at deep
      by_cases fits : node.depth ≤ room
      · have shorter := Forest.length_upTo_trace_lt rest room (by omega)
        simpa [Forest.trace, Node.upTo_trace_of_depth_le node room fits] using shorter
      · have shorter := Node.length_upTo_trace_lt node room (by omega)
        rw [Forest.trace, Node.upTo_trace_of_lt_depth node room (by omega), List.length_append]
        omega

end

/-! ## The first marker above a level -/

namespace Trace

theorem upTo_split (room : Nat) (items : List Item) :
    upTo room items = items ∨ ∃ rule after, items = upTo room items ++ .opening rule :: after := by
  fun_induction upTo room items with
  | case1 => exact Or.inl rfl
  | case2 rule rest => exact Or.inr ⟨rule, rest, rfl⟩
  | case3 room rule rest ih | case4 room rule rest ih | case5 room token rest ih =>
      rcases ih with same | ⟨next, after, split⟩
      · exact Or.inl (by rw [same])
      · exact Or.inr ⟨next, after, by rw [List.cons_append, ← split]⟩

-- `pending.length` markers are open before the items; what is open and what is left make up the limit.
theorem levelFrom_upTo {pending : List Rule} {room : Nat} {items : List Item}
    (balanced : balancedFrom pending items = true) (shorter : upTo room items ≠ items) :
    levelFrom pending.length (upTo room items) = pending.length + room := by
  induction items generalizing pending room with
  | nil => exact absurd rfl shorter
  | cons item rest ih =>
      cases item with
      | opening rule =>
          cases room with
          | zero => rfl
          | succ room =>
              have later := @ih (rule :: pending) room balanced
                (fun same => shorter (by rw [upTo, same]))
              simp only [upTo, levelFrom, List.foldl_cons, Item.levelAfter] at later ⊢
              rw [List.length_cons] at later
              rw [later]
              omega
      | closing rule =>
          cases pending with
          | nil => cases balanced
          | cons inner outer =>
              simp only [balancedFrom, Bool.and_eq_true] at balanced
              have later := @ih outer (room + 1) balanced.2
                (fun same => shorter (by rw [upTo_closing, same]))
              simp only [upTo_closing, levelFrom, List.foldl_cons, Item.levelAfter, List.length_cons,
                Nat.add_sub_cancel] at later ⊢
              rw [later]
              omega
      | token t =>
          have balanced' : balancedFrom pending rest = true := by cases pending <;> exact balanced
          have later := @ih pending room balanced' (fun same => shorter (by rw [upTo_token, same]))
          simpa only [upTo_token, levelFrom, List.foldl_cons, Item.levelAfter] using later

theorem levelFrom_le_of_isPrefix_upTo {pending : List Rule} {room : Nat} {items front : List Item}
    (balanced : balancedFrom pending items = true) (starts : front <+: upTo room items) :
    levelFrom pending.length front ≤ pending.length + room := by
  induction items generalizing pending room front with
  | nil =>
      have empty : front = [] := by simpa [upTo] using starts
      simp [empty, levelFrom]
  | cons item rest ih =>
      cases front with
      | nil => simp [levelFrom]
      | cons first front =>
          cases item with
          | opening rule =>
              cases room with
              | zero => simp [upTo] at starts
              | succ room =>
                  obtain ⟨rfl, later⟩ := List.cons_prefix_cons.mp starts
                  have bound := @ih (rule :: pending) room front balanced later
                  simp only [levelFrom, List.foldl_cons, Item.levelAfter, List.length_cons] at bound ⊢
                  omega
          | closing rule =>
              rw [upTo_closing] at starts
              obtain ⟨rfl, later⟩ := List.cons_prefix_cons.mp starts
              cases pending with
              | nil => cases balanced
              | cons inner outer =>
                  simp only [balancedFrom, Bool.and_eq_true] at balanced
                  have bound := ih balanced.2 later
                  simp only [levelFrom, List.foldl_cons, Item.levelAfter, List.length_cons,
                    Nat.add_sub_cancel] at bound ⊢
                  omega
          | token t =>
              rw [upTo_token] at starts
              obtain ⟨rfl, later⟩ := List.cons_prefix_cons.mp starts
              have balanced' : balancedFrom pending rest = true := by cases pending <;> exact balanced
              simpa only [levelFrom, List.foldl_cons, Item.levelAfter] using ih balanced' later

end Trace

theorem Node.firstAtLevel_upTo {node : Node} {room : Nat} (deep : room < node.depth) :
    FirstAtLevel (room + 1) node.trace (upTo room node.trace) := by
  have balanced : balancedFrom [] node.trace = true := node.balanced_trace
  have shorter : upTo room node.trace ≠ node.trace := by
    intro same
    have lt := node.length_upTo_trace_lt room deep
    rw [same] at lt
    omega
  constructor
  · obtain ⟨rule, after, split⟩ := (upTo_split room node.trace).resolve_left shorter
    have reached := levelFrom_upTo balanced shorter
    refine ⟨rule, after, split, ?_⟩
    simp only [level, levelFrom, List.foldl_append, List.foldl_cons, List.foldl_nil, List.length_nil,
      Item.levelAfter, Nat.zero_add] at reached ⊢
    rw [reached]
  · intro earlier rule starts same
    have bound := levelFrom_le_of_isPrefix_upTo balanced starts
    rw [level] at same
    simp only [List.length_nil] at bound
    omega

end Jack
