import Jack.Proofs.Parse.Exactness

/-!
# The nesting limit

A run that does not exceed its limit is the same under every larger limit. A tree is read under exactly the
limits that its depth does not exceed; under a smaller one, parsing stops at the token before which the tree
first opens one branch too many.
-/

namespace Jack

/-! ## Larger limits change nothing -/

def Outcome.TooDeep (o : Outcome) : Prop :=
  ∃ limit found, o.failure? = some (.grammar (.tooDeep limit) found)

theorem Outcome.not_tooDeep_of_success {o : Outcome} (success : o.failure? = none) : ¬ o.TooDeep := by
  rintro ⟨limit, found, failure⟩
  rw [success] at failure
  cases failure

theorem Phrase.Runs.of_visit {visit other : Rule → Cursor → Visit}
    (rules : ∀ r k c, ¬ ((visit r c).toOutcome k).TooDeep → other r c = visit r c)
    {phrase : Phrase} {k : Locals} {c : Cursor} {o : Outcome} (runs : Runs visit phrase k c o)
    (shallow : ¬ o.TooDeep) : Runs other phrase k c o := by
  induction runs with
  | nothing k c => exact .nothing k c
  | refuse violation k c => exact .refuse violation k c
  | read member => exact .read member
  | missed foreign => exact .missed foreign
  | rule r k c =>
      rw [← rules r k c shallow]
      exact .rule r k c
  | cut _ failure ih => exact .cut (ih shallow) failure
  | andThen _ success _ ihFirst ihSecond =>
      exact .andThen (ihFirst (Outcome.not_tooDeep_of_success success)) success (ihSecond shallow)
  | chosen member _ ih => exact .chosen member (ih shallow)
  | otherwise foreign _ ih => exact .otherwise foreign (ih shallow)
  | done foreign => exact .done foreign
  | last member _ ended ih => exact .last member (ih shallow) ended
  | again member _ success progress _ ihFirst ihRest =>
      exact .again member (ihFirst (Outcome.not_tooDeep_of_success success)) success progress
        (ihRest shallow)
  | noted _ ih =>
      refine .noted (ih ?_)
      simpa [Outcome.TooDeep] using shallow

theorem Rule.visit_mono {limit room larger wider : Nat} (le : room ≤ wider) (rule : Rule) (k : Locals)
    (c : Cursor) (shallow : ¬ ((rule.visit limit room c).toOutcome k).TooDeep) :
    rule.visit larger wider c = rule.visit limit room c := by
  induction room generalizing wider rule k c with
  | zero => exact absurd ⟨limit, c.peek, rfl⟩ shallow
  | succ room ih =>
      cases wider with
      | zero => omega
      | succ wider =>
          have runs := Phrase.runs_run (Rule.visit limit room) rule.body {} c
          have shallow' : ¬ (rule.body.run (Rule.visit limit room) {} c).TooDeep := by
            rw [Rule.visit, Visit.toOutcome_enclose] at shallow
            exact shallow
          have same := (runs.of_visit (fun r k d => ih (Nat.le_of_succ_le_succ le) r k d) shallow').eq_run
          rw [Rule.visit, Rule.visit, same]

theorem parseClass_mono {limit larger : Nat} (le : limit ≤ larger) {stream : TokenStream}
    (shallow : ∀ n found, (parseClass limit stream).result ≠ .error (.grammar (.tooDeep n) found)) :
    parseClass larger stream = parseClass limit stream := by
  apply Rule.visit_mono le .class {}
  rintro ⟨n, found, failure⟩
  exact shallow n found (Visit.result_eq_error_iff.mpr failure)

/-! ## Where a smaller limit stops -/

theorem class_trace_ends {tree : Node} (derives : Rule.class.Derives tree) :
    ∃ token, [Trace.Item.token token, .closing .class] <:+ tree.trace := by
  obtain ⟨label, derived⟩ := derives
  obtain ⟨children, rfl⟩ := Node.eq_branch_of_label label
  cases derived with
  | branch production below =>
      generalize same : children.map Node.label = labels at production
      cases production with
      | classBody declared defined =>
          obtain ⟨front, back, rfl, _, ending⟩ := List.map_eq_append_iff.mp same
          obtain ⟨brace, rfl, label'⟩ := List.map_eq_singleton_iff.mp ending
          obtain ⟨token, _, rfl⟩ := Node.eq_leaf_of_label label'
          exact ⟨token, .opening .class :: Forest.trace front, by simp [Node.trace]⟩

-- The closing brace of the class comes after every opening marker.
theorem tokens_after_opening {tree : Node} (derives : Rule.class.Derives tree)
    {before after : List Trace.Item} {rule : Rule} (split : tree.trace = before ++ .opening rule :: after) :
    Trace.tokens after ≠ [] := by
  obtain ⟨token, ending⟩ := class_trace_ends derives
  have suffix : .opening rule :: after <:+ tree.trace := ⟨before, split.symm⟩
  rcases List.suffix_or_suffix_of_suffix ending suffix with inside | outside
  · rcases List.suffix_cons_iff.mp inside with same | ⟨front, rfl⟩
    · cases same
    · simp [Trace.tokens, Trace.Item.token?]
  · have member := outside.subset (List.mem_cons_self)
    simp at member

theorem parseClass_tooDeep {limit : Nat} {tokens : List Token} {tree : Node} (endOffset endLine : Nat)
    (derives : Rule.class.Derives tree) (starts : tree.tokens <+: tokens) (deep : limit < tree.depth) :
    ∃ before found, Trace.FirstAtLevel (limit + 1) tree.trace before ∧
      tokens[(Trace.tokens before).length]? = some found ∧
      (parseClass limit (.ofTokens tokens endOffset endLine)).result =
        .error (.grammar (.tooDeep limit) found) := by
  have first := Node.firstAtLevel_upTo deep
  obtain ⟨rule, after, split, _⟩ := first.opens
  obtain ⟨token, later, more⟩ := List.exists_cons_of_ne_nil (tokens_after_opening derives split)
  have read : tree.tokens = Trace.tokens (Trace.upTo limit tree.trace) ++ token :: later := by
    calc tree.tokens = Trace.tokens tree.trace := tree.tokens_trace.symm
      _ = Trace.tokens (Trace.upTo limit tree.trace ++ .opening rule :: after) := congrArg _ split
      _ = _ := by rw [Trace.tokens_append, Trace.tokens_opening, more]
  obtain ⟨rest, rfl⟩ := starts
  refine ⟨Trace.upTo limit tree.trace, token, first, by simp [read], ?_⟩
  cases parseClass_takes limit endOffset endLine derives ⟨rest, rfl⟩ with
  | whole fits _ _ _ =>
      rw [Forest.depth_singleton] at fits
      omega
  | cut _ failure passes =>
      have whole : tree.tokens ++ rest =
          Trace.tokens (Trace.upTo limit tree.trace) ++ (token :: later ++ rest) := by
        rw [read, List.append_assoc]
      have unread := passes.unread.symm.trans whole
      rw [Forest.trace_singleton] at unread
      rw [Visit.result_eq_error_iff, failure, Cursor.peek_eq, List.append_cancel_left unread]
      rfl

theorem parseClass_nestingLimit (tokens : List Token) (endOffset endLine limit : Nat) :
    ((∀ n found, (parseClass limit (.ofTokens tokens endOffset endLine)).result ≠
        .error (.grammar (.tooDeep n) found)) →
      ∀ larger ≥ limit, parseClass larger (.ofTokens tokens endOffset endLine) =
        parseClass limit (.ofTokens tokens endOffset endLine)) ∧
    ∀ tree, (parseClass limit (.ofTokens tokens endOffset endLine)).result = .ok tree → ∀ m,
      (tree.depth ≤ m → (parseClass m (.ofTokens tokens endOffset endLine)).result = .ok tree) ∧
      (m < tree.depth → ∃ before found, Trace.FirstAtLevel (m + 1) tree.trace before ∧
        tokens[(Trace.tokens before).length]? = some found ∧
        (parseClass m (.ofTokens tokens endOffset endLine)).result =
          .error (.grammar (.tooDeep m) found)) := by
  constructor
  · intro shallow larger le
    exact parseClass_mono le shallow
  · intro tree parsed m
    obtain ⟨derives, starts, _⟩ := derives_of_parseClass parsed
    exact ⟨parseClass_of_derives endOffset endLine derives starts,
      parseClass_tooDeep endOffset endLine derives starts⟩

-- The limit 5 has room for the `return` statement, and none for the expression in front of the minus sign.
theorem parseClass_nestingLimit_negation :
    (∀ larger ≥ 8, parseClass larger (.ofTokens negationSource 0 1) =
      parseClass 8 (.ofTokens negationSource 0 1)) ∧
    (parseClass 5 (.ofTokens negationSource 0 1)).result =
      .error (.grammar (.tooDeep 5) (.bare (.symbol .minus))) ∧
    ∃ before found, Trace.FirstAtLevel 6 negationTree.trace before ∧
      negationSource[(Trace.tokens before).length]? = some found ∧
      (parseClass 5 (.ofTokens negationSource 0 1)).result = .error (.grammar (.tooDeep 5) found) := by
  obtain ⟨larger, trees⟩ := parseClass_nestingLimit negationSource 0 1 8
  have parsed : (parseClass 8 (.ofTokens negationSource 0 1)).result = .ok negationTree :=
    Visit.result_eq_ok_iff.mpr (by decide +kernel)
  exact ⟨larger (by simp [parsed]), Visit.result_eq_error_iff.mpr (by decide +kernel),
    (trees negationTree parsed 5).2 (by decide)⟩

end Jack
