import Jack.Trace
import Mathlib.Data.List.Forall2

/-!
# Trees that are alike

Two trees are alike if they have the same branches and their leaves correspond, for a relation on tokens.
This is so if and only if their traces correspond item by item: a trace can be taken apart into a tree in
one way only.
-/

namespace Jack

variable {same other : Token → Token → Prop}

mutual

def Node.Alike (same : Token → Token → Prop) : Node → Node → Prop
  | .leaf s, .leaf t => same s t
  | .branch rule children, .branch rule' children' => rule = rule' ∧ Forest.Alike same children children'
  | _, _ => False

def Forest.Alike (same : Token → Token → Prop) : List Node → List Node → Prop
  | [], [] => True
  | node :: rest, node' :: rest' => node.Alike same node' ∧ Forest.Alike same rest rest'
  | _, _ => False

end

def Trace.Item.Alike (same : Token → Token → Prop) : Item → Item → Prop
  | .opening rule, .opening rule' => rule = rule'
  | .closing rule, .closing rule' => rule = rule'
  | .token s, .token t => same s t
  | _, _ => False

open Trace

mutual

theorem Node.Alike.imp : {a b : Node} → (∀ s ∈ a.tokens, ∀ t ∈ b.tokens, same s t → other s t) →
    a.Alike same b → a.Alike other b
  | .leaf s, .leaf t, imply, alike => imply s (by simp [Node.tokens]) t (by simp [Node.tokens]) alike
  | .branch _ _, .branch _ _, imply, ⟨rules, alike⟩ => ⟨rules, Forest.Alike.imp imply alike⟩

theorem Forest.Alike.imp : {as bs : List Node} →
    (∀ s ∈ Forest.tokens as, ∀ t ∈ Forest.tokens bs, same s t → other s t) →
    Forest.Alike same as bs → Forest.Alike other as bs
  | [], [], _, _ => trivial
  | _ :: _, _ :: _, imply, ⟨first, more⟩ =>
      ⟨first.imp fun s hs t ht => imply s (List.mem_append_left _ hs) t (List.mem_append_left _ ht),
        Forest.Alike.imp
          (fun s hs t ht => imply s (List.mem_append_right _ hs) t (List.mem_append_right _ ht)) more⟩

end

/-! ## Traces of trees that are alike -/

mutual

theorem Node.Alike.trace : {a b : Node} → a.Alike same b → List.Forall₂ (Item.Alike same) a.trace b.trace
  | .leaf _, .leaf _, alike => .cons alike .nil
  | .branch _ _, .branch _ _, ⟨rules, alike⟩ =>
      .cons rules (List.rel_append (Forest.Alike.trace alike) (.cons rules .nil))

theorem Forest.Alike.trace : {as bs : List Node} → Forest.Alike same as bs →
    List.Forall₂ (Item.Alike same) (Forest.trace as) (Forest.trace bs)
  | [], [], _ => .nil
  | _ :: _, _ :: _, ⟨first, more⟩ => List.rel_append first.trace (Forest.Alike.trace more)

end

-- A trace does not begin with a closing marker, which tells where the trace of a forest ends.
theorem Node.not_forall₂_closing (node : Node) (rule : Rule) (items rest : List Item) :
    ¬ List.Forall₂ (Item.Alike same) (.closing rule :: items) (node.trace ++ rest) ∧
    ¬ List.Forall₂ (Item.Alike same) (node.trace ++ rest) (.closing rule :: items) := by
  cases node <;> simp [Node.trace, Item.Alike]

mutual

theorem Node.alike_of_trace : {a b : Node} → {rest rest' : List Item} →
    List.Forall₂ (Item.Alike same) (a.trace ++ rest) (b.trace ++ rest') →
    a.Alike same b ∧ List.Forall₂ (Item.Alike same) rest rest'
  | .leaf s, .leaf t, _, _, traces => List.forall₂_cons.mp traces
  | .leaf s, .branch rule children, _, _, traces => (List.forall₂_cons.mp traces).1.elim
  | .branch rule children, .leaf t, _, _, traces => (List.forall₂_cons.mp traces).1.elim
  | .branch rule children, .branch rule' children', rest, rest', traces => by
      simp only [Node.trace, List.cons_append, List.append_assoc, List.nil_append] at traces
      obtain ⟨rules, below⟩ := List.forall₂_cons.mp traces
      obtain ⟨alike, after⟩ := Forest.alike_of_trace below
      exact ⟨⟨rules, alike⟩, after⟩

theorem Forest.alike_of_trace : {as bs : List Node} → {rule rule' : Rule} → {rest rest' : List Item} →
    List.Forall₂ (Item.Alike same) (Forest.trace as ++ .closing rule :: rest)
      (Forest.trace bs ++ .closing rule' :: rest') →
    Forest.Alike same as bs ∧ List.Forall₂ (Item.Alike same) rest rest'
  | [], [], _, _, _, _, traces => ⟨trivial, (List.forall₂_cons.mp traces).2⟩
  | [], b :: bs, _, _, _, _, traces => by
      rw [Forest.trace, Forest.trace, List.append_assoc] at traces
      exact absurd traces (b.not_forall₂_closing _ _ _).1
  | a :: as, [], _, _, _, _, traces => by
      rw [Forest.trace, Forest.trace, List.append_assoc] at traces
      exact absurd traces (a.not_forall₂_closing _ _ _).2
  | a :: as, b :: bs, _, _, _, _, traces => by
      rw [Forest.trace, Forest.trace, List.append_assoc, List.append_assoc] at traces
      obtain ⟨first, more⟩ := Node.alike_of_trace traces
      obtain ⟨others, after⟩ := Forest.alike_of_trace more
      exact ⟨⟨first, others⟩, after⟩

end

theorem Node.alike_iff_trace {a b : Node} :
    a.Alike same b ↔ List.Forall₂ (Item.Alike same) a.trace b.trace := by
  constructor
  · exact Node.Alike.trace
  · intro traces
    rw [← List.append_nil a.trace, ← List.append_nil b.trace] at traces
    exact (Node.alike_of_trace traces).1

end Jack
