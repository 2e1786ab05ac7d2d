import Jack.Proofs.Parse.Counter
import Jack.Proofs.Parse.Expectation
import Mathlib.Logic.Relation

/-!
# How deep a parser can get

Some rules open another one without reading a token, but never more than three of them open in a row. Every
token that is read makes room for two more rules, and so after `n` tokens a rule is entered at a level of
`2 * n + 1` at most. A limit beyond that for all tokens of a source is never met.
-/

namespace Jack

/-! ## Moments of parsing -/

/-- What the parser is about to read, how many rules are open, the locals of the innermost one, and the place in the
source. -/
structure Moment where
  phrase : Phrase
  depth : Nat
  locals : Locals
  cursor : Cursor

namespace Moment

def start (tokens : List Token) (endOffset endLine : Nat) : Moment :=
  ⟨.rule .class, 0, {}, .atStart (.ofTokens tokens endOffset endLine)⟩

/-- The moments that come right after a moment, on the way through the phrase that is read there. -/
inductive Next (limit : Nat) : Moment → Moment → Prop where
  | enter {r : Rule} {depth : Nat} {k : Locals} {c : Cursor} (free : depth < limit) :
      Next limit ⟨.rule r, depth, k, c⟩ ⟨r.body, depth + 1, {}, c⟩
  | front {front back : Phrase} {depth : Nat} {k : Locals} {c : Cursor} :
      Next limit ⟨.andThen front back, depth, k, c⟩ ⟨front, depth, k, c⟩
  | back {front back : Phrase} {depth left : Nat} {k : Locals} {c : Cursor} {o : Outcome}
      (first : Phrase.Counted limit front depth k c o left) (success : o.failure? = none) :
      Next limit ⟨.andThen front back, depth, k, c⟩ ⟨back, left, o.locals, o.cursor⟩
  | chosen {kinds : List Kind} {chosen otherwise : Phrase} {depth : Nat} {k : Locals} {c : Cursor}
      (member : c.peek.kind ∈ kinds) :
      Next limit ⟨.choose kinds chosen otherwise, depth, k, c⟩ ⟨chosen, depth, k, c⟩
  | otherwise {kinds : List Kind} {chosen otherwise : Phrase} {depth : Nat} {k : Locals} {c : Cursor}
      (foreign : c.peek.kind ∉ kinds) :
      Next limit ⟨.choose kinds chosen otherwise, depth, k, c⟩ ⟨otherwise, depth, k, c⟩
  | round {kinds : List Kind} {round : Phrase} {depth : Nat} {k : Locals} {c : Cursor}
      (member : c.peek.kind ∈ kinds) : Next limit ⟨.many kinds round, depth, k, c⟩ ⟨round, depth, k, c⟩
  | again {kinds : List Kind} {round : Phrase} {depth left : Nat} {k : Locals} {c : Cursor} {o : Outcome}
      (member : c.peek.kind ∈ kinds) (first : Phrase.Counted limit round depth k c o left)
      (success : o.failure? = none) :
      Next limit ⟨.many kinds round, depth, k, c⟩ ⟨.many kinds round, left, o.locals, o.cursor⟩
  | noted {note : Note} {body : Phrase} {depth : Nat} {k : Locals} {c : Cursor} :
      Next limit ⟨.noted note body, depth, k, c⟩ ⟨body, depth, k, c⟩

/-- The parser gets from one moment to the other. -/
def Leads (limit : Nat) : Moment → Moment → Prop := Relation.ReflTransGen (Next limit)

/-- From the moment on, the parser comes to a rule, at a level and a place as they are wanted. -/
def ComesTo (limit : Nat) (m : Moment) (wanted : Rule → Nat → Cursor → Prop) : Prop :=
  ∃ rule depth k c, m.Leads limit ⟨.rule rule, depth, k, c⟩ ∧ wanted rule depth c

theorem ComesTo.after {limit : Nat} {m next : Moment} {wanted : Rule → Nat → Cursor → Prop}
    (comes : next.ComesTo limit wanted) (step : Next limit m next) : m.ComesTo limit wanted := by
  obtain ⟨rule, depth, k, c, leads, found⟩ := comes
  exact ⟨rule, depth, k, c, .head step leads, found⟩

end Moment

/-! ## Moments and outcomes

Every rule that a parser notes as entered, and one that it refuses to enter, is a rule that it came to. -/

namespace Phrase

variable {limit depth left : Nat} {phrase : Phrase} {k : Locals} {c : Cursor} {o : Outcome}

theorem enter_mem_noted {first : Token} {note : Note} {rule : Rule} {line : Nat} :
    .enter rule line ∈ (o.noted first note).journal ↔ .enter rule line ∈ o.journal := by
  have none : .enter rule line ∉ o.locals.events note := by cases note <;> simp [Locals.events]
  unfold Outcome.noted
  split <;> simp [none]

theorem Counted.comesTo_of_entered (counted : Counted limit phrase depth k c o left) {rule : Rule}
    {line : Nat} (entered : .enter rule line ∈ o.journal) :
    Moment.ComesTo limit ⟨phrase, depth, k, c⟩ fun r level d =>
      r = rule ∧ level < limit ∧ d.peek.line = line := by
  induction counted with
  | nothing | refuse | read | missed | tooDeep | done => cases entered
  | @enter r depth left c o k free _ ih =>
      rw [Visit.toOutcome_enclose] at entered
      rcases List.mem_cons.mp entered with here | inside
      · cases here
        exact ⟨rule, depth, k, c, .refl, rfl, free, rfl⟩
      · exact (ih inside).after (.enter free)
  | cut _ _ ih => exact (ih entered).after .front
  | andThen first success _ ihFirst ihSecond =>
      rcases List.mem_append.mp entered with before | after
      · exact (ihFirst before).after .front
      · exact (ihSecond after).after (.back first success)
  | chosen member _ ih => exact (ih entered).after (.chosen member)
  | otherwise foreign _ ih => exact (ih entered).after (.otherwise foreign)
  | broken member _ _ ih => exact (ih entered).after (.round member)
  | again member first success _ ihFirst ihRest =>
      rcases List.mem_append.mp entered with before | after
      · exact (ihFirst before).after (.round member)
      · exact (ihRest after).after (.again member first success)
  | noted _ ih => exact (ih (enter_mem_noted.mp entered)).after .noted

theorem Counted.comesTo_of_tooDeep (counted : Counted limit phrase depth k c o left) {passed : List Kind}
    (candid : phrase.candid passed = true) {n : Nat} {found : Token}
    (failure : o.failure? = some (.grammar (.tooDeep n) found)) :
    Moment.ComesTo limit ⟨phrase, depth, k, c⟩ fun _ level _ => limit ≤ level := by
  induction counted generalizing passed with
  | nothing | read | missed | done => cases failure
  | refuse violation =>
      -- A phrase that refuses says what it expects, and a limit that is met expects nothing.
      cases failure
      cases candid
  | @tooDeep depth r k c full => exact ⟨r, depth, k, c, .refl, full⟩
  | @enter r depth left c o k free _ ih =>
      rw [Visit.toOutcome_enclose] at failure
      exact (ih r.candid_body failure).after (.enter free)
  | cut _ _ ih =>
      simp only [Phrase.candid, Bool.and_eq_true] at candid
      exact (ih candid.1 failure).after .front
  | andThen first success _ _ ih =>
      simp only [Phrase.candid, Bool.and_eq_true] at candid
      exact (ih candid.2 failure).after (.back first success)
  | chosen member _ ih =>
      simp only [Phrase.candid, Bool.and_eq_true] at candid
      exact (ih candid.1 failure).after (.chosen member)
  | otherwise foreign _ ih =>
      simp only [Phrase.candid, Bool.and_eq_true] at candid
      exact (ih candid.2 failure).after (.otherwise foreign)
  | broken member _ _ ih => exact (ih candid failure).after (.round member)
  | again member first success _ _ ih => exact (ih candid failure).after (.again member first success)
  | noted _ ih =>
      rw [Outcome.failure?_noted] at failure
      exact (ih candid failure).after .noted

end Phrase

/-! ## Rules and the tokens between them -/

/-- How many rules may be entered inside a rule, each inside the one before, until a token is read. -/
def Rule.descent : Rule → Nat
  | .expressionList => 2
  | .expression | .statements => 1
  | _ => 0

namespace Phrase

/-- How many tokens are read at least with a phrase, those of its rules apart. -/
def least : Phrase → Nat
  | .nothing => 0
  | .refuse _ => 0
  | .token _ => 1
  | .rule _ => 0
  | .andThen front back => front.least + back.least
  | .choose _ chosen otherwise => min chosen.least otherwise.least
  | .many _ _ => 0
  | .noted _ body => body.least

/-- There is room for every rule of the phrase and what may be entered inside it, if there is room for as many
rules as the budget says before the phrase, and for two more with every token. -/
def affords (budget : Nat) : Phrase → Bool
  | .nothing => true
  | .refuse _ => true
  | .token _ => true
  | .rule r => r.descent < budget
  | .andThen front back => front.affords budget && back.affords (budget + 2 * front.least)
  | .choose _ chosen otherwise => chosen.affords budget && otherwise.affords budget
  | .many _ round => round.affords budget
  | .noted _ body => body.affords budget

theorem affords_mono {phrase : Phrase} {budget larger : Nat} (le : budget ≤ larger)
    (affords : phrase.affords budget = true) : phrase.affords larger = true := by
  induction phrase generalizing budget larger with
  | nothing | refuse | token => rfl
  | rule r =>
      rw [Phrase.affords, decide_eq_true_eq] at affords ⊢
      omega
  | andThen front back ihFront ihBack =>
      rw [Phrase.affords, Bool.and_eq_true] at affords ⊢
      exact ⟨ihFront le affords.1, ihBack (Nat.add_le_add_right le _) affords.2⟩
  | choose kinds chosen otherwise ihChosen ihOtherwise =>
      rw [Phrase.affords, Bool.and_eq_true] at affords ⊢
      exact ⟨ihChosen le affords.1, ihOtherwise le affords.2⟩
  | many kinds round ih => exact ih le affords
  | noted note body ih => exact ih le affords

theorem Spells.least_le {phrase : Phrase} {nodes : List Node} (spells : phrase.Spells (nodes.map Node.label)) :
    phrase.least ≤ (Forest.tokens nodes).length := by
  generalize same : nodes.map Node.label = labels at spells
  induction spells generalizing nodes with
  | nothing => exact Nat.zero_le _
  | @token kinds kind member =>
      obtain ⟨node, rfl, label⟩ := List.map_eq_singleton_iff.mp same
      obtain ⟨token, _, rfl⟩ := Node.eq_leaf_of_label label
      simp [least, Node.tokens]
  | rule => exact Nat.zero_le _
  | andThen _ _ ihFirst ihSecond =>
      obtain ⟨before, after, rfl, first, second⟩ := List.map_eq_append_iff.mp same
      have front := ihFirst first
      have back := ihSecond second
      rw [Forest.tokens_append, List.length_append, least]
      omega
  | chosen _ ih => exact Nat.le_trans (Nat.min_le_left _ _) (ih same)
  | otherwise _ ih => exact Nat.le_trans (Nat.min_le_right _ _) (ih same)
  | done => exact Nat.zero_le _
  | again => exact Nat.zero_le _
  | noted _ ih => exact ih same

theorem Sound.length_unread {phrase : Phrase} {c : Cursor} {o : Outcome} (sound : phrase.Sound c o)
    (success : o.failure? = none) : o.cursor.unread.length + phrase.least ≤ c.unread.length := by
  have read := (sound.spells success).least_le
  rw [(sound.tokens success).unread, List.length_append]
  omega

theorem Counted.sound {limit depth left : Nat} {phrase : Phrase} {k : Locals} {c : Cursor} {o : Outcome}
    (counted : Counted limit phrase depth k c o left) (within : depth ≤ limit) (closed : c.Closed)
    (real : .eof ∉ phrase.kindsRead) (advances : phrase.advances = true) :
    phrase.Sound c o ∧ left = depth := by
  obtain ⟨room, split⟩ := Nat.exists_eq_add_of_le within
  obtain ⟨runs, same⟩ := counted.runs split.symm closed real advances
  exact ⟨runs.sound (Rule.visit_sound limit room) closed real, same⟩

end Phrase

theorem Rule.affords_body (r : Rule) : r.body.affords r.descent = true := by
  cases r <;> decide

/-! ## Levels -/

namespace Moment

/-- What holds at every moment of parsing some tokens: the rules that are open and those that there is room for
are not more than the tokens that were read allow for. -/
structure Afloat (limit : Nat) (tokens : List Token) (m : Moment) : Prop where
  closed : m.cursor.Closed
  real : .eof ∉ m.phrase.kindsRead
  advances : m.phrase.advances = true
  suffix : m.cursor.unread <:+ tokens
  within : m.depth ≤ limit
  afforded : ∃ budget, m.phrase.affords budget = true ∧
    m.depth + budget + 2 * m.cursor.unread.length ≤ 2 * tokens.length + 1

variable {limit : Nat} {tokens : List Token} {m next : Moment}

theorem afloat_start (tokens : List Token) (endOffset endLine limit : Nat) :
    (start tokens endOffset endLine).Afloat limit tokens where
  closed := Cursor.closed_atStart tokens endOffset endLine
  real := by simp [start, Phrase.kindsRead]
  advances := rfl
  suffix := List.suffix_refl tokens
  within := Nat.zero_le limit
  afforded := ⟨1, rfl, by simp [start, Cursor.unread, Cursor.atStart, TokenStream.ofTokens]; omega⟩

theorem Afloat.enter {r : Rule} {depth : Nat} {k : Locals} {c : Cursor}
    (afloat : Afloat limit tokens ⟨.rule r, depth, k, c⟩) (free : depth < limit) :
    Afloat limit tokens ⟨r.body, depth + 1, {}, c⟩ where
  closed := afloat.closed
  real := r.eof_not_mem_kindsRead
  advances := r.advances_body
  suffix := afloat.suffix
  within := free
  afforded := by
    obtain ⟨budget, affords, le⟩ := afloat.afforded
    have room : r.descent < budget := of_decide_eq_true affords
    refine ⟨r.descent, r.affords_body, ?_⟩
    simp only at le ⊢
    omega

/-- The part of a phrase that is read first, or instead of the phrase, can afford what the phrase can. -/
theorem Afloat.part {phrase part : Phrase} {depth : Nat} {k : Locals} {c : Cursor}
    (afloat : Afloat limit tokens ⟨phrase, depth, k, c⟩) (kinds : part.kindsRead ⊆ phrase.kindsRead)
    (advances : phrase.advances = true → part.advances = true)
    (affords : ∀ budget, phrase.affords budget = true → part.affords budget = true) :
    Afloat limit tokens ⟨part, depth, k, c⟩ where
  closed := afloat.closed
  real := fun member => afloat.real (kinds member)
  advances := advances afloat.advances
  suffix := afloat.suffix
  within := afloat.within
  afforded := by
    obtain ⟨budget, afforded, le⟩ := afloat.afforded
    exact ⟨budget, affords budget afforded, le⟩

/-- What is read behind a part of a phrase can afford two more rules for every token of that part. -/
theorem Afloat.behind {phrase part rest : Phrase} {depth left : Nat} {k : Locals} {c : Cursor} {o : Outcome}
    (afloat : Afloat limit tokens ⟨phrase, depth, k, c⟩)
    (first : Phrase.Counted limit part depth k c o left) (success : o.failure? = none)
    (kinds : part.kindsRead ⊆ phrase.kindsRead ∧ rest.kindsRead ⊆ phrase.kindsRead)
    (advances : phrase.advances = true → part.advances = true ∧ rest.advances = true)
    (affords : ∀ budget, phrase.affords budget = true → rest.affords (budget + 2 * part.least) = true) :
    Afloat limit tokens ⟨rest, left, o.locals, o.cursor⟩ := by
  have partAdvances := (advances afloat.advances).1
  obtain ⟨sound, rfl⟩ :=
    first.sound afloat.within afloat.closed (fun member => afloat.real (kinds.1 member)) partAdvances
  have passes := sound.tokens success
  have read := sound.length_unread success
  exact {
    closed := passes.closed afloat.closed
    real := fun member => afloat.real (kinds.2 member)
    advances := (advances afloat.advances).2
    suffix := List.IsSuffix.trans ⟨_, passes.unread.symm⟩ afloat.suffix
    within := afloat.within
    afforded := by
      obtain ⟨budget, afforded, le⟩ := afloat.afforded
      refine ⟨_, affords budget afforded, ?_⟩
      simp only at le ⊢
      omega }

theorem Afloat.step (afloat : m.Afloat limit tokens) (step : Next limit m next) :
    next.Afloat limit tokens := by
  cases step with
  | enter free => exact afloat.enter free
  | front =>
      apply afloat.part
      · exact List.subset_append_left _ _
      · simp +contextual [Phrase.advances]
      · simp +contextual [Phrase.affords]
  | back first success =>
      apply afloat.behind first success
      · exact ⟨List.subset_append_left _ _, List.subset_append_right _ _⟩
      · simp +contextual [Phrase.advances]
      · simp +contextual [Phrase.affords]
  | chosen member =>
      apply afloat.part
      · exact List.subset_append_left _ _
      · simp +contextual [Phrase.advances]
      · simp +contextual [Phrase.affords]
  | otherwise foreign =>
      apply afloat.part
      · exact List.subset_append_right _ _
      · simp +contextual [Phrase.advances]
      · simp +contextual [Phrase.affords]
  | round member =>
      apply afloat.part
      · exact List.Subset.refl _
      · simp +contextual [Phrase.advances]
      · exact fun _ affords => affords
  | again member first success =>
      apply afloat.behind first success
      · exact ⟨List.Subset.refl _, List.Subset.refl _⟩
      · simp +contextual [Phrase.advances]
      · exact fun _ => Phrase.affords_mono (Nat.le_add_right _ _)
  | noted => exact afloat.part (List.Subset.refl _) id (fun _ => id)

theorem Afloat.leads (afloat : m.Afloat limit tokens) (leads : m.Leads limit next) :
    next.Afloat limit tokens := by
  induction leads with
  | refl => exact afloat
  | tail _ step ih => exact ih.step step

theorem Afloat.level_le {rule : Rule} {depth : Nat} {k : Locals} {c : Cursor}
    (afloat : Afloat limit tokens ⟨.rule rule, depth, k, c⟩) :
    ∃ read, tokens = read ++ c.unread ∧ depth + 1 ≤ 2 * read.length + 1 := by
  obtain ⟨read, split⟩ := afloat.suffix
  obtain ⟨budget, affords, le⟩ := afloat.afforded
  have room : rule.descent < budget := of_decide_eq_true affords
  have length := congrArg List.length split
  rw [List.length_append] at length
  refine ⟨read, split.symm, ?_⟩
  simp only at le length
  omega

end Moment

/-! ## Limits that are never met -/

theorem Visit.journal_toOutcome (v : Visit) (k : Locals) : (v.toOutcome k).journal = v.journal := by
  unfold toOutcome
  split <;> rfl

section

variable (tokens : List Token) (endOffset endLine limit : Nat)

theorem counted_parseClass :
    Phrase.Counted limit (.rule .class) 0 {} (.atStart (.ofTokens tokens endOffset endLine))
      ((parseClass limit (.ofTokens tokens endOffset endLine)).toOutcome {}) 0 :=
  Rule.counted_visit (Nat.zero_add limit) .class {} _ (Cursor.closed_atStart tokens endOffset endLine)

variable {tokens endOffset endLine limit}

theorem parseClass_ne_tooDeep (ample : 2 * tokens.length + 1 ≤ limit) (n : Nat) (found : Token) :
    (parseClass limit (.ofTokens tokens endOffset endLine)).result ≠ .error (.grammar (.tooDeep n) found) := by
  intro deep
  have failure := Visit.result_eq_error_iff.mp deep
  have candid : (Phrase.rule .class).candid [] = true := rfl
  obtain ⟨rule, depth, k, c, leads, full⟩ :=
    (counted_parseClass tokens endOffset endLine limit).comesTo_of_tooDeep candid failure
  obtain ⟨read, rfl, level⟩ := ((Moment.afloat_start tokens endOffset endLine limit).leads leads).level_le
  rw [List.length_append] at ample
  omega

theorem parseClass_eq_ok_iff (ample : 2 * tokens.length + 1 ≤ limit) (tree : Node) :
    (parseClass limit (.ofTokens tokens endOffset endLine)).result = .ok tree ↔
      Rule.class.Derives tree ∧ tree.tokens <+: tokens := by
  constructor
  · intro parsed
    obtain ⟨derives, starts, _⟩ := derives_of_parseClass parsed
    exact ⟨derives, starts⟩
  · rintro ⟨derives, starts⟩
    apply parseClass_of_derives endOffset endLine derives starts
    apply Nat.le_of_not_lt
    intro deep
    obtain ⟨_, found, _, _, failed⟩ := parseClass_tooDeep endOffset endLine derives starts deep
    exact parseClass_ne_tooDeep ample limit found failed

end

theorem parseClass_headroom (tokens : List Token) (endOffset endLine limit : Nat) :
    (∀ rule depth k c, (Moment.start tokens endOffset endLine).Leads limit ⟨.rule rule, depth, k, c⟩ →
      ∃ read, tokens = read ++ c.unread ∧ depth + 1 ≤ 2 * read.length + 1) ∧
    (∀ m, (Moment.start tokens endOffset endLine).Leads limit m → m.depth ≤ limit) ∧
    (∀ rule line, .enter rule line ∈ (parseClass limit (.ofTokens tokens endOffset endLine)).journal →
      ∃ depth k c, (Moment.start tokens endOffset endLine).Leads limit ⟨.rule rule, depth, k, c⟩ ∧
        depth < limit ∧ c.peek.line = line) ∧
    (2 * tokens.length + 1 ≤ limit →
      (∀ n found, (parseClass limit (.ofTokens tokens endOffset endLine)).result ≠
        .error (.grammar (.tooDeep n) found)) ∧
      ∀ tree, (parseClass limit (.ofTokens tokens endOffset endLine)).result = .ok tree ↔
        Rule.class.Derives tree ∧ tree.tokens <+: tokens) := by
  have afloat := Moment.afloat_start tokens endOffset endLine limit
  refine ⟨?_, ?_, ?_, ?_⟩
  · intro rule depth k c leads
    exact (afloat.leads leads).level_le
  · intro m leads
    exact (afloat.leads leads).within
  · intro rule line entered
    rw [← Visit.journal_toOutcome _ {}] at entered
    obtain ⟨_, depth, k, c, leads, rfl, free, same⟩ :=
      (counted_parseClass tokens endOffset endLine limit).comesTo_of_entered entered
    exact ⟨depth, k, c, leads, free, same⟩
  · intro ample
    exact ⟨parseClass_ne_tooDeep ample, parseClass_eq_ok_iff ample⟩

theorem parseClass_headroom_negation :
    2 * negationSource.length + 1 ≤ 35 ∧
    (Rule.class.Derives negationTree ∧ negationTree.tokens <+: negationSource) ∧
    ∃ depth k c read, (Moment.start negationSource 0 1).Leads 35 ⟨.rule .term, depth, k, c⟩ ∧
      negationSource = read ++ c.unread ∧ depth + 1 ≤ 2 * read.length + 1 := by
  obtain ⟨levels, -, entered, ample⟩ := parseClass_headroom negationSource 0 1 35
  have fits : 2 * negationSource.length + 1 ≤ 35 := by decide
  have parsed : (parseClass 35 (.ofTokens negationSource 0 1)).result = .ok negationTree :=
    Visit.result_eq_ok_iff.mpr (by decide +kernel)
  obtain ⟨depth, k, c, leads, -⟩ := entered .term 1 (by decide +kernel)
  obtain ⟨read, split, level⟩ := levels .term depth k c leads
  exact ⟨fits, ((ample fits).2 negationTree).mp parsed, depth, k, c, read, leads, split, level⟩

end Jack
