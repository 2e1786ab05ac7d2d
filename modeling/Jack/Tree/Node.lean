import Jack.Token.Basic
import Jack.Tree.Rule

/-!
# Syntax trees

A tree has tokens at its leaves and a grammar rule at each branch. Every query on trees comes with its
counterpart on forests, the lists of trees that stand below a branch.
-/

namespace Jack

inductive Node where
  | leaf (token : Token)
  | branch (rule : Rule) (children : List Node)
deriving Repr, Inhabited

abbrev Forest := List Node

mutual

def Node.decEq : (a b : Node) → Decidable (a = b)
  | .leaf s, .leaf t =>
    if h : s = t then .isTrue (congrArg Node.leaf h) else .isFalse fun same => h (Node.leaf.inj same)
  | .branch r ms, .branch q ns =>
    match Forest.decEq ms ns with
    | .isTrue below =>
      if h : r = q then .isTrue (by rw [h, below]) else .isFalse fun same => h (Node.branch.inj same).1
    | .isFalse below => .isFalse fun same => below (Node.branch.inj same).2
  | .leaf _, .branch _ _ => .isFalse (by simp)
  | .branch _ _, .leaf _ => .isFalse (by simp)

def Forest.decEq : (ms ns : List Node) → Decidable (ms = ns)
  | [], [] => .isTrue rfl
  | [], _ :: _ => .isFalse (by simp)
  | _ :: _, [] => .isFalse (by simp)
  | m :: ms, n :: ns =>
    match Node.decEq m n, Forest.decEq ms ns with
    | .isTrue head, .isTrue tail => .isTrue (by rw [head, tail])
    | .isFalse head, _ => .isFalse fun same => head (List.cons.inj same).1
    | _, .isFalse tail => .isFalse fun same => tail (List.cons.inj same).2

end

instance : DecidableEq Node := Node.decEq

namespace Node

def rule? : Node → Option Rule
  | .leaf _ => none
  | .branch rule _ => some rule

def token? : Node → Option Token
  | .leaf token => some token
  | .branch _ _ => none

def children : Node → List Node
  | .leaf _ => []
  | .branch _ children => children

end Node

/-! ## The tokens of a tree -/

mutual

def Node.tokens : Node → List Token
  | .leaf token => [token]
  | .branch _ children => Forest.tokens children

def Forest.tokens : List Node → List Token
  | [] => []
  | node :: rest => node.tokens ++ Forest.tokens rest

end

@[simp] theorem Forest.tokens_append (front back : List Node) :
    Forest.tokens (front ++ back) = Forest.tokens front ++ Forest.tokens back := by
  induction front with
  | nil => rfl
  | cons node front ih => simp [Forest.tokens, ih]

@[simp] theorem Forest.tokens_singleton (node : Node) : Forest.tokens [node] = node.tokens := by
  simp [Forest.tokens]

/-! ## The branches of a rule -/

mutual

/-- The nodes of a rule, each before those below it, from left to right. -/
def Node.findAll (rule : Rule) : Node → List Node
  | .leaf _ => []
  | .branch r children =>
    if r = rule then .branch r children :: Forest.findAll rule children else Forest.findAll rule children

def Forest.findAll (rule : Rule) : List Node → List Node
  | [] => []
  | node :: rest => node.findAll rule ++ Forest.findAll rule rest

end

/-! ## The depth of a tree -/

mutual

/-- The largest number of branches on the way to a leaf or an empty branch. -/
def Node.depth : Node → Nat
  | .leaf _ => 0
  | .branch _ children => Forest.depth children + 1

def Forest.depth : List Node → Nat
  | [] => 0
  | node :: rest => max node.depth (Forest.depth rest)

end

@[simp] theorem Forest.depth_append (front back : List Node) :
    Forest.depth (front ++ back) = max (Forest.depth front) (Forest.depth back) := by
  induction front with
  | nil => simp [Forest.depth]
  | cons node front ih => simp [Forest.depth, ih, Nat.max_assoc]

@[simp] theorem Forest.depth_singleton (node : Node) : Forest.depth [node] = node.depth := by
  simp [Forest.depth]

/-! ## Structured output -/

mutual

/-- The tree in structured output: a tag tells tokens from rules. -/
def Node.toJson : Node → Json
  | .leaf token => .object (("type", .string "terminal") :: token.fields)
  | .branch rule children =>
    .object [("type", .string "nonTerminal"), ("kind", .string rule.name),
      ("children", .array (Forest.toJson children))]

def Forest.toJson : List Node → List Json
  | [] => []
  | node :: rest => node.toJson :: Forest.toJson rest

end

namespace Node

def lexemes (node : Node) : List String := node.tokens.map Token.lexeme

/-- How many nodes of each rule a tree has; rules without any are left out. -/
def ruleCounts (node : Node) : List (Rule × Nat) :=
  (Rule.all.map fun rule => (rule, (node.findAll rule).length)).filter (·.2 != 0)

end Node

end Jack
