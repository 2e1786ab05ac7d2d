import Jack.Proofs.Trace.Markers

/-!
# Balanced traces are forests

A trace is read back by keeping, for each marker that is open, the trees that stand before it at its level.
The reader gets to the end of a trace if and only if the trace is balanced, and then it has rebuilt the one
forest that the trace was taken from.
-/

namespace Jack

namespace Trace

/-- A branch that is open: its rule, and the trees before it at its level. -/
structure Frame where
  earlier : List Node
  rule : Rule

def rebuildFrom : List Frame → List Node → List Item → Option (List Node)
  | [], nodes, [] => some nodes
  | _ :: _, _, [] => none
  | frames, nodes, .opening rule :: rest => rebuildFrom (⟨nodes, rule⟩ :: frames) [] rest
  | [], _, .closing _ :: _ => none
  | frame :: outer, nodes, .closing rule :: rest =>
    if frame.rule = rule then rebuildFrom outer (frame.earlier ++ [.branch rule nodes]) rest else none
  | frames, nodes, .token token :: rest => rebuildFrom frames (nodes ++ [.leaf token]) rest

def rebuild (items : List Item) : Option (List Node) := rebuildFrom [] [] items

/-- What was read when the given branches are open and the given trees stand in the innermost one. -/
def behind : List Frame → List Node → List Item
  | [], nodes => Forest.trace nodes
  | frame :: outer, nodes => behind outer frame.earlier ++ .opening frame.rule :: Forest.trace nodes

theorem behind_append (frames : List Frame) (nodes more : List Node) :
    behind frames (nodes ++ more) = behind frames nodes ++ Forest.trace more := by
  cases frames <;> simp [behind]

@[simp] theorem rebuildFrom_opening (frames : List Frame) (nodes : List Node) (rule : Rule)
    (rest : List Item) :
    rebuildFrom frames nodes (.opening rule :: rest) = rebuildFrom (⟨nodes, rule⟩ :: frames) [] rest := by
  cases frames <;> rfl

@[simp] theorem rebuildFrom_token (frames : List Frame) (nodes : List Node) (token : Token)
    (rest : List Item) :
    rebuildFrom frames nodes (.token token :: rest) =
      rebuildFrom frames (nodes ++ [.leaf token]) rest := by
  cases frames <;> rfl

theorem isSome_rebuildFrom (frames : List Frame) (nodes : List Node) (items : List Item) :
    (rebuildFrom frames nodes items).isSome = balancedFrom (frames.map Frame.rule) items := by
  fun_induction rebuildFrom frames nodes items with
  | case1 | case2 | case4 => rfl
  | case3 frames nodes rule rest ih => rw [ih]; rfl
  | case5 frame outer nodes rest ih => simp [balancedFrom, ih]
  | case6 frame outer nodes rule rest differs => simp [balancedFrom, differs]
  | case7 frames nodes token rest ih => rw [ih]; cases frames <;> rfl

theorem trace_of_rebuildFrom {frames : List Frame} {nodes result : List Node} {items : List Item}
    (rebuilt : rebuildFrom frames nodes items = some result) :
    Forest.trace result = behind frames nodes ++ items := by
  fun_induction rebuildFrom frames nodes items with
  | case1 nodes =>
      cases rebuilt
      simp [behind]
  | case2 | case4 | case6 => cases rebuilt
  | case3 frames nodes rule rest ih => simpa [behind, Forest.trace] using ih rebuilt
  | case5 frame outer nodes rest ih =>
      rw [ih rebuilt, behind_append, behind]
      simp [Node.trace]
  | case7 frames nodes token rest ih =>
      rw [ih rebuilt, behind_append]
      simp [Node.trace]

end Trace

open Trace

mutual

theorem Node.rebuildFrom_trace : (node : Node) → (frames : List Frame) → (nodes : List Node) →
    (rest : List Item) →
    rebuildFrom frames nodes (node.trace ++ rest) = rebuildFrom frames (nodes ++ [node]) rest
  | .leaf token, frames, nodes, rest => by simp [Node.trace]
  | .branch rule children, frames, nodes, rest => by
      simp [Node.trace, Forest.rebuildFrom_trace children, rebuildFrom]

theorem Forest.rebuildFrom_trace : (more : List Node) → (frames : List Frame) → (nodes : List Node) →
    (rest : List Item) →
    rebuildFrom frames nodes (Forest.trace more ++ rest) = rebuildFrom frames (nodes ++ more) rest
  | [], frames, nodes, rest => by simp [Forest.trace]
  | node :: more, frames, nodes, rest => by
      simp [Forest.trace, Node.rebuildFrom_trace node, Forest.rebuildFrom_trace more]

end

namespace Trace

theorem rebuild_trace (nodes : List Node) : rebuild (Forest.trace nodes) = some nodes := by
  have rebuilt := Forest.rebuildFrom_trace nodes [] [] []
  rwa [List.append_nil, List.nil_append] at rebuilt

theorem rebuild_eq_some_iff {items : List Item} {nodes : List Node} :
    rebuild items = some nodes ↔ Forest.trace nodes = items := by
  constructor
  · intro rebuilt
    exact trace_of_rebuildFrom rebuilt
  · rintro rfl
    exact rebuild_trace nodes

theorem balanced_iff_exists_forest (items : List Item) :
    balanced items = true ↔ ∃ nodes, Forest.trace nodes = items := by
  have same : (rebuild items).isSome = balanced items := isSome_rebuildFrom [] [] items
  rw [← same, Option.isSome_iff_exists]
  simp only [rebuild_eq_some_iff]

end Trace

theorem Forest.trace_injective : Function.Injective Forest.trace := by
  intro nodes others same
  have rebuilt := rebuild_trace nodes
  rw [same, rebuild_trace] at rebuilt
  exact (Option.some.inj rebuilt).symm

theorem Node.trace_injective : Function.Injective Node.trace := by
  intro a b same
  have forests : Forest.trace [a] = Forest.trace [b] := by simpa using same
  simpa using Forest.trace_injective forests

theorem Forest.trace_ne_nil (node : Node) (rest : List Node) : Forest.trace (node :: rest) ≠ [] := by
  cases node <;> simp [Forest.trace, Node.trace]

namespace Trace

theorem exists_branch_of_closes {items : List Item} (balanced : balanced items = true)
    (closes : Closes items 0 (items.length - 1)) :
    ∃ rule children, (Node.branch rule children).trace = items := by
  obtain ⟨nodes, rfl⟩ := (balanced_iff_exists_forest items).mp balanced
  obtain ⟨rule, first, _⟩ := closes.markers
  match nodes with
  | [] => cases first
  | .leaf token :: rest => cases first
  | .branch rule children :: [] => exact ⟨rule, children, (Forest.trace_singleton _).symm⟩
  | .branch rule children :: next :: rest =>
      -- Where the trace of the first tree ends, its marker is closed already.
      have later := List.length_pos_iff.mpr (Forest.trace_ne_nil next rest)
      have start := Node.length_trace_branch rule children
      have slice := extract_between [] (Node.branch rule children).trace (Forest.trace (next :: rest))
      have open' := closes.pending (Node.branch rule children).trace.length (by omega) (by
        rw [Forest.trace, List.length_append]
        omega)
      rw [List.nil_append, List.length_nil, Nat.zero_add] at slice
      rw [Forest.trace, slice, level, Node.levelFrom_trace] at open'
      exact absurd open' (Nat.lt_irrefl 0)

theorem balanced_exactly_forests :
    (∀ items, (balanced items = true ↔ ∃ nodes, Forest.trace nodes = items) ∧
      ∀ nodes others, Forest.trace nodes = items → Forest.trace others = items → nodes = others) ∧
    Function.Injective Node.trace ∧
    ∀ items, balanced items = true → Closes items 0 (items.length - 1) →
      ∃ rule children, (Node.branch rule children).trace = items ∧
        ∀ node : Node, node.trace = items → node = .branch rule children := by
  refine ⟨fun items => ⟨balanced_iff_exists_forest items, ?_⟩, Node.trace_injective, ?_⟩
  · intro nodes others traced traced'
    exact Forest.trace_injective (traced.trans traced'.symm)
  · intro items balanced closes
    obtain ⟨rule, children, traced⟩ := exists_branch_of_closes balanced closes
    refine ⟨rule, children, traced, ?_⟩
    intro node same
    exact Node.trace_injective (same.trans traced.symm)

/-- The trace of `-x`, with a term inside a term. -/
def negationItems : List Item :=
  [.opening .term, .token ⟨.symbol .minus, "-", .point 0 1⟩, .opening .term,
    .token ⟨.ident, "x", .point 1 1⟩, .closing .term, .closing .term]

theorem balanced_exactly_forests_negation :
    balanced negationItems = true ∧ balanced (negationItems.take 5) = false ∧
    Closes negationItems 0 5 ∧ ∃ rule children, (Node.branch rule children).trace = negationItems ∧
      ∀ node : Node, node.trace = negationItems → node = .branch rule children := by
  have closes : Closes negationItems 0 5 := by
    refine ⟨by decide, ⟨.term, rfl, rfl⟩, ?_, rfl⟩
    intro n positive inside
    match n with
    | 1 | 2 | 3 | 4 | 5 => decide
  obtain ⟨_, _, branches⟩ := balanced_exactly_forests
  exact ⟨rfl, rfl, closes, branches negationItems rfl closes⟩

end Trace

end Jack
