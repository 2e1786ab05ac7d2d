import Jack.Proofs.Trace.Markers

/-!
# Trees and their traces answer alike

The tokens of a tree, its branches of a rule and its depth can all be read off its trace: the tokens are the
items that are no markers, the branches are the stretches between an opening marker and the one that closes
it, and the depth is the largest number of markers that are open at once.
-/

namespace Jack

open Trace

/-! ## Branches of a rule -/

mutual

theorem Node.count_markers (rule : Rule) : (node : Node) →
    node.trace.count (.opening rule) = (node.findAll rule).length ∧
    node.trace.count (.closing rule) = (node.findAll rule).length
  | .leaf token => by simp [Node.trace, Node.findAll]
  | .branch r children => by
      obtain ⟨opened, closed⟩ := Forest.count_markers rule children
      by_cases same : r = rule
      · simp [Node.trace, Node.findAll, same, opened, closed]
      · simp [Node.trace, Node.findAll, same, opened, closed]

theorem Forest.count_markers (rule : Rule) : (nodes : List Node) →
    (Forest.trace nodes).count (.opening rule) = (Forest.findAll rule nodes).length ∧
    (Forest.trace nodes).count (.closing rule) = (Forest.findAll rule nodes).length
  | [] => ⟨rfl, rfl⟩
  | node :: rest => by
      obtain ⟨opened, closed⟩ := Node.count_markers rule node
      obtain ⟨opened', closed'⟩ := Forest.count_markers rule rest
      simp [Forest.trace, Forest.findAll, opened, closed, opened', closed']

end

/-- The counts of a tree list each rule that a marker of its trace opens, with the number of these markers. -/
theorem Node.mem_ruleCounts_iff {node : Node} {rule : Rule} {count : Nat} :
    (rule, count) ∈ node.ruleCounts ↔ count ≠ 0 ∧ node.trace.count (.opening rule) = count := by
  obtain ⟨opened, -⟩ := node.count_markers rule
  rw [opened, ruleCounts, List.mem_filter, List.mem_map]
  constructor
  · rintro ⟨⟨found, _, same⟩, nonzero⟩
    obtain ⟨rfl, rfl⟩ := Prod.mk.inj same
    exact ⟨by simpa using nonzero, rfl⟩
  · rintro ⟨nonzero, rfl⟩
    exact ⟨⟨rule, rule.mem_all, rfl⟩, by simpa using nonzero⟩

-- As many branches of the rule are found before this one as markers of the rule open before its own.
mutual

theorem Node.trace_of_findAll {rule : Rule} : (node : Node) → {i : Nat} → {found : Node} →
    (node.findAll rule)[i]? = some found → ∃ before children after, found = .branch rule children ∧
      node.trace = before ++ (found.trace ++ after) ∧ before.count (.opening rule) = i
  | .leaf token, i, found, member => by simp [Node.findAll] at member
  | .branch r children, i, found, member => by
      have below {j : Nat} (inside : (Forest.findAll rule children)[j]? = some found) :
          ∃ before children' after, found = .branch rule children' ∧
            (Node.branch r children).trace = before ++ (found.trace ++ after) ∧
            before.count (.opening rule) = j + if r = rule then 1 else 0 := by
        obtain ⟨before, children', after, branch, split, count⟩ := Forest.trace_of_findAll children inside
        refine ⟨.opening r :: before, children', after ++ [.closing r], branch, ?_, ?_⟩
        · simp [Node.trace, split]
        · simp [List.count_cons, count]
      by_cases same : r = rule
      · subst same
        cases i with
        | zero =>
            obtain rfl : Node.branch r children = found := by simpa [Node.findAll] using member
            exact ⟨[], children, [], rfl, by simp, rfl⟩
        | succ i =>
            have inside : (Forest.findAll r children)[i]? = some found := by
              simpa [Node.findAll] using member
            simpa using below inside
      · have inside : (Forest.findAll rule children)[i]? = some found := by
          simpa [Node.findAll, same] using member
        simpa [same] using below inside

theorem Forest.trace_of_findAll {rule : Rule} : (nodes : List Node) → {i : Nat} → {found : Node} →
    (Forest.findAll rule nodes)[i]? = some found → ∃ before children after,
      found = .branch rule children ∧
      Forest.trace nodes = before ++ (found.trace ++ after) ∧ before.count (.opening rule) = i
  | [], i, found, member => by simp [Forest.findAll] at member
  | node :: rest, i, found, member => by
      rw [Forest.findAll, List.getElem?_append] at member
      split at member
      · obtain ⟨before, children, after, branch, split, count⟩ := Node.trace_of_findAll node member
        exact ⟨before, children, after ++ Forest.trace rest, branch, by simp [Forest.trace, split], count⟩
      · obtain ⟨before, children, after, branch, split, count⟩ := Forest.trace_of_findAll rest member
        refine ⟨node.trace ++ before, children, after, branch, by simp [Forest.trace, split], ?_⟩
        rw [List.count_append, count, (Node.count_markers rule node).1]
        omega

end

/-! ## Depth -/

theorem Node.level_le_depth (node : Node) {front : List Item} (starts : front <+: node.trace) :
    level front ≤ node.depth := by
  have whole : upTo node.depth node.trace = node.trace := by
    simpa [upTo] using node.upTo_trace_of_depth_le node.depth (Nat.le_refl _) []
  have bound := levelFrom_le_of_isPrefix_upTo node.balanced_trace (whole.symm ▸ starts)
  simpa [level] using bound

theorem Node.exists_level_eq_depth (node : Node) :
    ∃ front, front <+: node.trace ∧ level front = node.depth := by
  cases deep : node.depth with
  | zero => exact ⟨[], List.nil_prefix, rfl⟩
  | succ room =>
      have first := Node.firstAtLevel_upTo (show room < node.depth by omega)
      obtain ⟨rule, after, split, reached⟩ := first.opens
      refine ⟨_, ⟨after, ?_⟩, reached⟩
      rw [List.append_assoc]
      exact split.symm

theorem Node.trace_answers (node : Node) :
    Trace.tokens node.trace = node.tokens ∧
    (∀ rule, node.trace.count (.opening rule) = (node.findAll rule).length ∧
      node.trace.count (.closing rule) = (node.findAll rule).length ∧
      ∀ i found, (node.findAll rule)[i]? = some found → ∃ start stop,
        node.trace[start]? = some (.opening rule) ∧ (node.trace.take start).count (.opening rule) = i ∧
        Closes node.trace start stop ∧ found.trace = node.trace.extract start (stop + 1)) ∧
    (∃ front, front <+: node.trace ∧ level front = node.depth) ∧
    (∀ front, front <+: node.trace → level front ≤ node.depth) ∧
    balanced node.trace = true := by
  refine ⟨node.tokens_trace, ?_, node.exists_level_eq_depth, fun _ => node.level_le_depth,
    node.balanced_trace⟩
  intro rule
  obtain ⟨opened, closed⟩ := node.count_markers rule
  refine ⟨opened, closed, ?_⟩
  intro i found member
  obtain ⟨before, children, after, rfl, split, count⟩ := node.trace_of_findAll member
  have slice := extract_between before (Node.branch rule children).trace after
  rw [Node.length_trace_branch] at slice
  refine ⟨before.length, before.length + (Forest.trace children).length + 1, ?_, ?_, ?_, ?_⟩
  · simp [split, Node.trace]
  · rw [split, List.take_left]
    exact count
  · rw [split]
    exact closes_branch before after rule children
  · rw [split]
    exact slice.symm

def negationOf (operand : Node) : Node := .branch .term [.leaf ⟨.symbol .minus, "-", .point 0 1⟩, operand]

/-- `x`, as the innermost of three terms in `--x` -/
def negatedName : Node := .branch .term [.leaf ⟨.ident, "x", .point 2 1⟩]

theorem Node.trace_answers_negation :
    ((negationOf (negationOf negatedName)).findAll .term)[1]? = some (negationOf negatedName) ∧
    ∃ start stop, ((negationOf (negationOf negatedName)).trace.take start).count (.opening .term) = 1 ∧
      Closes (negationOf (negationOf negatedName)).trace start stop ∧
      (negationOf negatedName).trace =
        (negationOf (negationOf negatedName)).trace.extract start (stop + 1) := by
  have second : ((negationOf (negationOf negatedName)).findAll .term)[1]? =
      some (negationOf negatedName) := rfl
  obtain ⟨_, branches, _⟩ := (negationOf (negationOf negatedName)).trace_answers
  obtain ⟨start, stop, _, count, closes, slice⟩ := (branches .term).2.2 1 _ second
  exact ⟨second, start, stop, count, closes, slice⟩

end Jack
