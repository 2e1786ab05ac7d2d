import Jack.Proofs.Tree.Levels

/-!
# Matching markers

The closing marker that belongs to an opening one is the first item at which no more markers are open than
before it. The markers of a branch match in every trace that the branch is part of.
-/

namespace Jack

namespace Trace

/-- The item at `stop` closes the marker that the item at `start` opens. -/
structure Closes (items : List Item) (start stop : Nat) : Prop where
  lt : start < stop
  markers : ∃ rule, items[start]? = some (.opening rule) ∧ items[stop]? = some (.closing rule)
  pending : ∀ n, start < n → n ≤ stop → 0 < level (items.extract start n)
  closed : level (items.extract start (stop + 1)) = 0

theorem levelFrom_append (height : Nat) (front back : List Item) :
    levelFrom height (front ++ back) = levelFrom (levelFrom height front) back :=
  List.foldl_append

end Trace

open Trace

theorem Node.length_trace_branch (rule : Rule) (children : List Node) :
    (Node.branch rule children).trace.length = (Forest.trace children).length + 2 := by
  simp [Node.trace]

mutual

theorem Node.levelFrom_trace : (node : Node) → (height : Nat) → levelFrom height node.trace = height
  | .leaf token, height => rfl
  | .branch rule children, height => by
      have below := Forest.levelFrom_trace children (height + 1)
      rw [Node.trace, levelFrom_append]
      change Item.levelAfter (levelFrom (height + 1) (Forest.trace children)) (.closing rule) = height
      rw [below]
      rfl

theorem Forest.levelFrom_trace : (nodes : List Node) → (height : Nat) →
    levelFrom height (Forest.trace nodes) = height
  | [], height => rfl
  | node :: rest, height => by
      rw [Forest.trace, levelFrom_append, Node.levelFrom_trace node, Forest.levelFrom_trace rest]

end

mutual

theorem Node.le_levelFrom_take : (node : Node) → (height n : Nat) →
    height ≤ levelFrom height (node.trace.take n)
  | .leaf token, height, n => by cases n <;> simp [Node.trace, levelFrom, Item.levelAfter]
  | .branch rule children, height, 0 => Nat.le_refl height
  | .branch rule children, height, n + 1 => by
      rcases Nat.lt_or_ge (Forest.trace children).length n with past | within
      · have whole : (Node.branch rule children).trace.take (n + 1) = (Node.branch rule children).trace := by
          apply List.take_of_length_le
          rw [Node.length_trace_branch]
          omega
        exact Nat.le_of_eq (by rw [whole, Node.levelFrom_trace])
      · have below := Forest.le_levelFrom_take children (height + 1) n
        rw [Node.trace, List.cons_append, List.take_succ_cons, List.take_append_of_le_length within]
        exact Nat.le_of_succ_le below

theorem Forest.le_levelFrom_take : (nodes : List Node) → (height n : Nat) →
    height ≤ levelFrom height ((Forest.trace nodes).take n)
  | [], height, n => by simp [Forest.trace, levelFrom]
  | node :: rest, height, n => by
      rw [Forest.trace, List.take_append, levelFrom_append]
      exact Nat.le_trans (Node.le_levelFrom_take node height n) (Forest.le_levelFrom_take rest _ _)

end

namespace Trace

theorem extract_between (before slice after : List Item) :
    (before ++ (slice ++ after)).extract before.length (before.length + slice.length) = slice := by
  rw [List.extract_eq_take_drop, List.drop_left, Nat.add_sub_cancel_left, List.take_left]

theorem closes_branch (before after : List Item) (rule : Rule) (children : List Node) :
    Closes (before ++ ((Node.branch rule children).trace ++ after)) before.length
      (before.length + (Forest.trace children).length + 1) where
  lt := by omega
  markers := ⟨rule, by simp [Node.trace], by simp [Node.trace, Nat.add_assoc]⟩
  pending := by
    intro n past within
    obtain ⟨m, rfl⟩ : ∃ m, n = before.length + (m + 1) := ⟨n - before.length - 1, by omega⟩
    have short : m ≤ (Forest.trace children).length := by omega
    have slice : (before ++ ((Node.branch rule children).trace ++ after)).extract before.length
        (before.length + (m + 1)) = .opening rule :: (Forest.trace children).take m := by
      rw [List.extract_eq_take_drop, List.drop_left, Nat.add_sub_cancel_left, Node.trace]
      simp [List.take_append_of_le_length short]
    rw [slice]
    exact Forest.le_levelFrom_take children 1 m
  closed := by
    have slice := extract_between before (Node.branch rule children).trace after
    rw [Node.length_trace_branch] at slice
    rw [Nat.add_assoc, Nat.add_assoc, slice]
    exact Node.levelFrom_trace _ 0

end Trace

end Jack
