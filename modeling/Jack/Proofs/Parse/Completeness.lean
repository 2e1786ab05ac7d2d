import Jack.Proofs.Grammar.LookAhead
import Jack.Proofs.Parse.Soundness
import Jack.Proofs.Tree.Levels

/-!
# Derived nodes are read

Where the tokens of derived nodes stand before the cursor, followed by a token that may follow them, a run
reads exactly these nodes if there is room for them. Otherwise it stops before the first branch for which
there is no room.
-/

namespace Jack

theorem Cursor.kind_peek {c : Cursor} (closed : c.Closed) : c.peek.kind = kindAhead c.unread := by
  rw [peek_eq]
  cases c.unread with
  | nil => exact closed
  | cons token rest => rfl

namespace Outcome

inductive Takes (limit room : Nat) (nodes : List Node) (c : Cursor) (o : Outcome) : Prop where
  | whole (fits : Forest.depth nodes ≤ room) (success : o.failure? = none) (read : o.nodes = nodes)
      (passes : c.Passes (Forest.tokens nodes) o.cursor)
  | cut (deep : room < Forest.depth nodes)
      (failure : o.failure? = some (.grammar (.tooDeep limit) o.cursor.peek))
      (passes : c.Passes (Trace.tokens (Trace.upTo room (Forest.trace nodes))) o.cursor)

variable {limit room : Nat} {c : Cursor} {o later : Outcome}

theorem takes_nothing (limit room : Nat) (k : Locals) (c : Cursor) :
    (nothing k c).Takes limit room [] c :=
  .whole (Nat.zero_le room) rfl rfl (.refl c)

theorem Takes.append {before after : List Node} (fits : Forest.depth before ≤ room)
    (read : o.nodes = before) (passes : c.Passes (Forest.tokens before) o.cursor)
    (second : later.Takes limit room after o.cursor) :
    (o.append later).Takes limit room (before ++ after) c := by
  cases second with
  | whole fits' success' read' passes' =>
      refine .whole ?_ success' ?_ ?_
      · rw [Forest.depth_append]
        exact Nat.max_le.mpr ⟨fits, fits'⟩
      · simp [Outcome.append, read, read']
      · rw [Forest.tokens_append]
        exact passes.trans passes'
  | cut deep failure passes' =>
      refine .cut ?_ failure ?_
      · rw [Forest.depth_append]
        omega
      · rw [Forest.trace_append, Forest.upTo_trace_of_depth_le before room fits, Trace.tokens_append,
          Forest.tokens_trace]
        exact passes.trans passes'

theorem takes_of_cut {before : List Node} (after : List Node) (deep : room < Forest.depth before)
    (failure : o.failure? = some (.grammar (.tooDeep limit) o.cursor.peek))
    (passes : c.Passes (Trace.tokens (Trace.upTo room (Forest.trace before))) o.cursor) :
    o.Takes limit room (before ++ after) c := by
  refine .cut ?_ failure ?_
  · rw [Forest.depth_append]
    omega
  · rw [Forest.trace_append, Forest.upTo_trace_of_lt_depth before room deep]
    exact passes

theorem Takes.noted {nodes : List Node} (takes : o.Takes limit room nodes c) (first : Token)
    (note : Note) : (o.noted first note).Takes limit room nodes c := by
  cases takes with
  | whole fits success read passes =>
      exact .whole fits (by simpa using success) (by simpa using read) (by simpa using passes)
  | cut deep failure passes => exact .cut deep (by simpa using failure) (by simpa using passes)

theorem Takes.enclose {rule : Rule} {children : List Node} (takes : o.Takes limit room children c)
    (k : Locals) : ((o.enclose rule c.peek).toOutcome k).Takes limit (room + 1) [.branch rule children] c := by
  rw [Visit.toOutcome_enclose]
  cases takes with
  | whole fits success read passes =>
      refine .whole (by simpa [Node.depth] using fits) success (by simp [success, read]) ?_
      simpa [Node.tokens] using passes
  | cut deep failure passes =>
      refine .cut (by simpa [Node.depth] using deep) failure ?_
      simpa [Node.trace, Trace.upTo, Forest.upTo_trace_of_lt_depth children room deep] using passes

end Outcome

namespace Phrase

/-- Rules are read as their derivation trees say, before a token that may follow them. -/
def RulesTake (limit room : Nat) (visit : Rule → Cursor → Visit) : Prop :=
  ∀ (r : Rule) (node : Node) (k : Locals) (c : Cursor) (rest : List Token), r.Derives node → c.Closed →
    c.unread = node.tokens ++ rest → kindAhead rest ∈ r.follow →
    ((visit r c).toOutcome k).Takes limit room [node] c

theorem Spells.takes {limit room : Nat} {visit : Rule → Cursor → Visit}
    (rules : RulesTake limit room visit) {phrase : Phrase} {nodes : List Node}
    (spells : phrase.Spells (nodes.map Node.label)) (derived : ∀ node ∈ nodes, node.Derived)
    {k : Locals} {c : Cursor} {rest : List Token} {after : List Kind} (closed : c.Closed)
    (unread : c.unread = Forest.tokens nodes ++ rest) (next : kindAhead rest ∈ after)
    (predictive : phrase.Predictive after) :
    ∃ o, Runs visit phrase k c o ∧ o.Takes limit room nodes c := by
  generalize same : nodes.map Node.label = labels at spells
  induction spells generalizing nodes k c rest after with
  | nothing =>
      rw [List.map_eq_nil_iff.mp same]
      exact ⟨_, .nothing k c, Outcome.takes_nothing limit room k c⟩
  | token member =>
      obtain ⟨node, rfl, label⟩ := List.map_eq_singleton_iff.mp same
      obtain ⟨token, rfl, rfl⟩ := Node.eq_leaf_of_label label
      have unread' : c.unread = token :: rest := by simpa [Node.tokens] using unread
      have peek : c.peek = token := by rw [Cursor.peek_eq, unread']; rfl
      refine ⟨_, .read (by rw [peek]; exact member), .whole (Nat.zero_le room) rfl ?_ ?_⟩
      · simp [Outcome.token, peek]
      · simp only [Outcome.token, Forest.tokens_singleton, Node.tokens]
        exact ⟨by simp [unread'], by simp [Cursor.advance, peek], rfl⟩
  | rule r =>
      obtain ⟨node, rfl, label⟩ := List.map_eq_singleton_iff.mp same
      refine ⟨_, .rule r k c, rules r node k c rest ⟨label, derived node (by simp)⟩ closed ?_ ?_⟩
      · simpa using unread
      · exact predictive _ next
  | andThen first second ihFront ihBack =>
      obtain ⟨front, back, rfl, rfl, rfl⟩ := List.map_eq_append_iff.mp same
      obtain ⟨derivedFront, derivedBack⟩ := List.forall_mem_append.mp derived
      rw [Forest.tokens_append, List.append_assoc] at unread
      have ahead := (second.opens_derived derivedBack).kindAhead_mem next
      obtain ⟨o, runs, takes⟩ := ihFront derivedFront closed unread ahead predictive.1 rfl
      cases takes with
      | whole fits success read passes =>
          have unread' : o.cursor.unread = Forest.tokens back ++ rest :=
            List.append_cancel_left (passes.unread.symm.trans unread)
          obtain ⟨later, runs', takes'⟩ :=
            ihBack derivedBack (passes.closed closed) unread' next predictive.2 rfl
          exact ⟨_, .andThen runs success runs', .append fits read passes takes'⟩
      | cut deep failure passes =>
          exact ⟨o, .cut runs failure, Outcome.takes_of_cut back deep failure passes⟩
  | chosen spells ih =>
      subst same
      have ahead := (spells.opens_derived derived).kindAhead_mem next
      rw [← unread, ← Cursor.kind_peek closed] at ahead
      obtain ⟨o, runs, takes⟩ := ih derived closed unread next predictive.2.2.1 rfl
      exact ⟨o, .chosen (predictive.1 _ ahead) runs, takes⟩
  | otherwise spells ih =>
      subst same
      have ahead := (spells.opens_derived derived).kindAhead_mem next
      rw [← unread, ← Cursor.kind_peek closed] at ahead
      obtain ⟨o, runs, takes⟩ := ih derived closed unread next predictive.2.2.2 rfl
      exact ⟨o, .otherwise (predictive.2.1 _ ahead) runs, takes⟩
  | done kinds round =>
      rw [List.map_eq_nil_iff.mp same] at unread ⊢
      have foreign : c.peek.kind ∉ kinds := by
        rw [Cursor.kind_peek closed, unread]
        exact predictive.2.2.1 _ next
      exact ⟨_, .done foreign, Outcome.takes_nothing limit room k c⟩
  | @again kinds round _ _ first more ihRound ihRest =>
      obtain ⟨front, back, rfl, rfl, rfl⟩ := List.map_eq_append_iff.mp same
      obtain ⟨derivedFront, derivedBack⟩ := List.forall_mem_append.mp derived
      rw [Forest.tokens_append, List.append_assoc] at unread
      obtain ⟨solid, begins, apart, predictiveRound⟩ := predictive
      -- A round reads at least one token, and it is one that asks for a round.
      obtain ⟨token, tokens, cons, member⟩ : ∃ token tokens, Forest.tokens front = token :: tokens ∧
          token.kind ∈ round.first := by
        rcases first.opens_derived derivedFront with ⟨_, empty⟩ | opens
        · simp [solid] at empty
        · exact opens
      have ahead : kindAhead (Forest.tokens back ++ rest) ∈ round.first ++ after :=
        (more.opens_derived derivedBack).kindAhead_mem next
      have asks : c.peek.kind ∈ kinds := by
        rw [Cursor.kind_peek closed, unread, cons]
        exact begins _ member
      obtain ⟨o, runs, takes⟩ := ihRound derivedFront closed unread ahead predictiveRound rfl
      cases takes with
      | whole fits success read passes =>
          have unread' : o.cursor.unread = Forest.tokens back ++ rest :=
            List.append_cancel_left (passes.unread.symm.trans unread)
          have progress : o.cursor.unread.length < c.unread.length := by
            rw [passes.unread, cons, List.length_append, List.length_cons]
            omega
          obtain ⟨later, runs', takes'⟩ :=
            ihRest derivedBack (passes.closed closed) unread' next ⟨solid, begins, apart, predictiveRound⟩ rfl
          exact ⟨_, .again asks runs success progress runs', .append fits read passes takes'⟩
      | cut deep failure passes =>
          exact ⟨o, .last asks runs (by simp [failure]), Outcome.takes_of_cut back deep failure passes⟩
  | noted _ ih =>
      obtain ⟨o, runs, takes⟩ := ih derived closed unread next predictive same
      exact ⟨_, .noted runs, takes.noted _ _⟩

end Phrase

theorem Rule.visit_takes (limit room : Nat) : Phrase.RulesTake limit room (Rule.visit limit room) := by
  induction room with
  | zero =>
      intro rule node k c rest derives closed unread next
      obtain ⟨children, rfl⟩ := Node.eq_branch_of_label derives.1
      exact .cut (by simp [Node.depth]) rfl (.refl c)
  | succ room ih =>
      intro rule node k c rest derives closed unread next
      obtain ⟨children, rfl⟩ := Node.eq_branch_of_label derives.1
      cases derives.2 with
      | branch production below =>
          have spells := rule.body_spells_iff.mpr production
          obtain ⟨o, runs, takes⟩ := spells.takes ih below closed unread next rule.predictive_body
          rw [Rule.visit, runs.eq_run]
          exact takes.enclose k

end Jack
