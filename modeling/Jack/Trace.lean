import Jack.Tree.Node

/-!
# Traces

A trace is a tree laid out flat: an opening and a closing marker for each branch, and the tokens between
them. A trace is written as markup, one item to a line.
-/

namespace Jack

namespace Trace

inductive Item where
  | opening (rule : Rule)
  | closing (rule : Rule)
  | token (token : Token)
deriving DecidableEq, Repr, Inhabited

def Item.markup : Item → String
  | .opening rule => Markup.openTag rule.name
  | .closing rule => Markup.closeTag rule.name
  | .token t => t.markup

/-- Whether the closing markers match the markers that are open, the innermost first, and all are closed
at the end. -/
def balancedFrom : List Rule → List Item → Bool
  | pending, [] => pending.isEmpty
  | pending, .opening rule :: rest => balancedFrom (rule :: pending) rest
  | [], .closing _ :: _ => false
  | inner :: outer, .closing rule :: rest => inner == rule && balancedFrom outer rest
  | pending, .token _ :: rest => balancedFrom pending rest

def balanced (items : List Item) : Bool := balancedFrom [] items

def render (ending : LineEnding) (items : List Item) : String :=
  Markup.lines ending (items.map Item.markup)

end Trace

mutual

def Node.trace : Node → List Trace.Item
  | .leaf token => [.token token]
  | .branch rule children => .opening rule :: Forest.trace children ++ [.closing rule]

def Forest.trace : List Node → List Trace.Item
  | [] => []
  | node :: rest => node.trace ++ Forest.trace rest

end

@[simp] theorem Forest.trace_append (front back : List Node) :
    Forest.trace (front ++ back) = Forest.trace front ++ Forest.trace back := by
  induction front with
  | nil => rfl
  | cons node front ih => simp [Forest.trace, ih]

@[simp] theorem Forest.trace_singleton (node : Node) : Forest.trace [node] = node.trace := by
  simp [Forest.trace]

def Node.render (ending : LineEnding) (node : Node) : String := Trace.render ending node.trace

end Jack
