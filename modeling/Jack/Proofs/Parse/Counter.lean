import Jack.Proofs.Grammar.LookAhead
import Jack.Proofs.Parse.Soundness

/-!
# Counting the open rules

A parser that counts the rules that are open, up when it enters a rule and down when it leaves it, reads
what a parser reads that hands down how many more of them there is room for. Whether a phrase is read or
fails, the counter is afterwards where it was before.
-/

namespace Jack

namespace Phrase

/-- Reading a phrase with a counter of open rules, which goes from the first number to the second. -/
inductive Counted (limit : Nat) : Phrase → Nat → Locals → Cursor → Outcome → Nat → Prop where
  | nothing (depth : Nat) (k : Locals) (c : Cursor) : Counted limit .nothing depth k c (.nothing k c) depth
  | refuse (violation : Violation) (depth : Nat) (k : Locals) (c : Cursor) :
      Counted limit (.refuse violation) depth k c (.failed violation k c) depth
  | read {kinds : List Kind} {k : Locals} {c : Cursor} (depth : Nat) (member : c.peek.kind ∈ kinds) :
      Counted limit (.token kinds) depth k c (.token k c) depth
  | missed {kinds : List Kind} {k : Locals} {c : Cursor} (depth : Nat) (foreign : c.peek.kind ∉ kinds) :
      Counted limit (.token kinds) depth k c (.failed (.unexpected kinds) k c) depth
  | tooDeep {depth : Nat} (r : Rule) (k : Locals) (c : Cursor) (full : limit ≤ depth) :
      Counted limit (.rule r) depth k c (.failed (.tooDeep limit) k c) depth
  | enter {r : Rule} {depth left : Nat} {c : Cursor} {o : Outcome} (k : Locals) (free : depth < limit)
      (body : Counted limit r.body (depth + 1) {} c o left) :
      Counted limit (.rule r) depth k c ((o.enclose r c.peek).toOutcome k) (left - 1)
  | cut {front back : Phrase} {depth left : Nat} {k : Locals} {c : Cursor} {o : Outcome} {d : Diagnostic}
      (first : Counted limit front depth k c o left) (failure : o.failure? = some d) :
      Counted limit (.andThen front back) depth k c o left
  | andThen {front back : Phrase} {depth middle left : Nat} {k : Locals} {c : Cursor} {o later : Outcome}
      (first : Counted limit front depth k c o middle) (success : o.failure? = none)
      (second : Counted limit back middle o.locals o.cursor later left) :
      Counted limit (.andThen front back) depth k c (o.append later) left
  | chosen {kinds : List Kind} {chosen otherwise : Phrase} {depth left : Nat} {k : Locals} {c : Cursor}
      {o : Outcome} (member : c.peek.kind ∈ kinds) (taken : Counted limit chosen depth k c o left) :
      Counted limit (.choose kinds chosen otherwise) depth k c o left
  | otherwise {kinds : List Kind} {chosen otherwise : Phrase} {depth left : Nat} {k : Locals} {c : Cursor}
      {o : Outcome} (foreign : c.peek.kind ∉ kinds) (taken : Counted limit otherwise depth k c o left) :
      Counted limit (.choose kinds chosen otherwise) depth k c o left
  | done {kinds : List Kind} {round : Phrase} {k : Locals} {c : Cursor} (depth : Nat)
      (foreign : c.peek.kind ∉ kinds) : Counted limit (.many kinds round) depth k c (.nothing k c) depth
  | broken {kinds : List Kind} {round : Phrase} {depth left : Nat} {k : Locals} {c : Cursor} {o : Outcome}
      {d : Diagnostic} (member : c.peek.kind ∈ kinds) (first : Counted limit round depth k c o left)
      (failure : o.failure? = some d) : Counted limit (.many kinds round) depth k c o left
  | again {kinds : List Kind} {round : Phrase} {depth middle left : Nat} {k : Locals} {c : Cursor}
      {o later : Outcome} (member : c.peek.kind ∈ kinds) (first : Counted limit round depth k c o middle)
      (success : o.failure? = none)
      (rest : Counted limit (.many kinds round) middle o.locals o.cursor later left) :
      Counted limit (.many kinds round) depth k c (o.append later) left
  | noted {note : Note} {body : Phrase} {depth left : Nat} {k : Locals} {c : Cursor} {o : Outcome}
      (read : Counted limit body depth k c o left) :
      Counted limit (.noted note body) depth k c (o.noted c.peek note) left

/-- No round of a repetition in the phrase can be empty. -/
def advances : Phrase → Bool
  | .nothing => true
  | .refuse _ => true
  | .token _ => true
  | .rule _ => true
  | .andThen front back => front.advances && back.advances
  | .choose _ chosen otherwise => chosen.advances && otherwise.advances
  | .many _ round => !round.nullable && round.advances
  | .noted _ body => body.advances

theorem Sound.progress {phrase : Phrase} {c : Cursor} {o : Outcome} (sound : phrase.Sound c o)
    (solid : phrase.nullable = false) (success : o.failure? = none) :
    o.cursor.unread.length < c.unread.length := by
  rcases (sound.spells success).opens_derived (sound.derived success) with
    ⟨_, empty⟩ | ⟨token, rest, tokens, _⟩
  · rw [solid] at empty
    cases empty
  · rw [(sound.tokens success).unread, tokens, List.length_append, List.length_cons]
    omega

end Phrase

theorem Rule.advances_body (rule : Rule) : rule.body.advances = true := by
  cases rule <;> decide

namespace Phrase

theorem Counted.runs {limit depth left : Nat} {phrase : Phrase} {k : Locals} {c : Cursor} {o : Outcome}
    (counted : Counted limit phrase depth k c o left) {room : Nat} (split : depth + room = limit)
    (closed : c.Closed) (real : .eof ∉ phrase.kindsRead) (advances : phrase.advances = true) :
    Runs (Rule.visit limit room) phrase k c o ∧ left = depth := by
  -- What is open and what there is room for add up to the limit, so one more rule open is one less below.
  induction counted generalizing room with
  | nothing depth k c => exact ⟨.nothing k c, rfl⟩
  | refuse violation depth k c => exact ⟨.refuse violation k c, rfl⟩
  | read depth member => exact ⟨.read member, rfl⟩
  | missed depth foreign => exact ⟨.missed foreign, rfl⟩
  | tooDeep r k c full =>
      obtain rfl : room = 0 := by omega
      exact ⟨.rule r k c, rfl⟩
  | @enter r depth left c o k free _ ih =>
      cases room with
      | zero => omega
      | succ room =>
          have split' : depth + 1 + room = limit := by omega
          obtain ⟨runs, rfl⟩ := ih split' closed r.eof_not_mem_kindsRead r.advances_body
          have same : r.visit limit (room + 1) c = o.enclose r c.peek := by rw [Rule.visit, runs.eq_run]
          rw [← same]
          exact ⟨.rule r k c, rfl⟩
  | cut _ failure ih =>
      simp only [Phrase.advances, Bool.and_eq_true] at advances
      obtain ⟨runs, same⟩ :=
        ih split closed (fun member => real (List.mem_append_left _ member)) advances.1
      exact ⟨.cut runs failure, same⟩
  | andThen _ success _ ihFirst ihSecond =>
      simp only [Phrase.advances, Bool.and_eq_true] at advances
      have realFront := fun member => real (List.mem_append_left _ member)
      have realBack := fun member => real (List.mem_append_right _ member)
      obtain ⟨runs, rfl⟩ := ihFirst split closed realFront advances.1
      have passes := (runs.sound (Rule.visit_sound limit room) closed realFront).tokens success
      obtain ⟨runs', same⟩ := ihSecond split (passes.closed closed) realBack advances.2
      exact ⟨.andThen runs success runs', same⟩
  | chosen member _ ih =>
      simp only [Phrase.advances, Bool.and_eq_true] at advances
      obtain ⟨runs, same⟩ :=
        ih split closed (fun member => real (List.mem_append_left _ member)) advances.1
      exact ⟨.chosen member runs, same⟩
  | otherwise foreign _ ih =>
      simp only [Phrase.advances, Bool.and_eq_true] at advances
      obtain ⟨runs, same⟩ :=
        ih split closed (fun member => real (List.mem_append_right _ member)) advances.2
      exact ⟨.otherwise foreign runs, same⟩
  | done depth foreign => exact ⟨.done foreign, rfl⟩
  | broken member _ failure ih =>
      simp only [Phrase.advances, Bool.and_eq_true] at advances
      obtain ⟨runs, same⟩ := ih split closed real advances.2
      exact ⟨.last member runs (by simp [failure]), same⟩
  | again member _ success _ ihFirst ihRest =>
      -- `repeatWhile` goes on only after a round that read something; here every round does.
      have solid := advances
      simp only [Phrase.advances, Bool.and_eq_true, Bool.not_eq_true'] at solid
      obtain ⟨runs, rfl⟩ := ihFirst split closed real solid.2
      have sound := runs.sound (Rule.visit_sound limit room) closed real
      obtain ⟨runs', same⟩ := ihRest split ((sound.tokens success).closed closed) real advances
      exact ⟨.again member runs success (sound.progress solid.1 success) runs', same⟩
  | noted _ ih =>
      obtain ⟨runs, same⟩ := ih split closed real advances
      exact ⟨.noted runs, same⟩

theorem Runs.counted {limit depth room : Nat} {phrase : Phrase} {k : Locals} {c : Cursor} {o : Outcome}
    (rules : ∀ r k c, c.Closed →
      Counted limit (.rule r) depth k c ((Rule.visit limit room r c).toOutcome k) depth)
    (runs : Runs (Rule.visit limit room) phrase k c o) (closed : c.Closed)
    (real : .eof ∉ phrase.kindsRead) (advances : phrase.advances = true) :
    Counted limit phrase depth k c o depth := by
  induction runs with
  | nothing k c => exact .nothing depth k c
  | refuse violation k c => exact .refuse violation depth k c
  | read member => exact .read depth member
  | missed foreign => exact .missed depth foreign
  | rule r k c => exact rules r k c closed
  | cut _ failure ih =>
      simp only [Phrase.advances, Bool.and_eq_true] at advances
      exact .cut (ih closed (fun member => real (List.mem_append_left _ member)) advances.1) failure
  | andThen first success _ ihFirst ihSecond =>
      simp only [Phrase.advances, Bool.and_eq_true] at advances
      have realFront := fun member => real (List.mem_append_left _ member)
      have realBack := fun member => real (List.mem_append_right _ member)
      have passes := (first.sound (Rule.visit_sound limit room) closed realFront).tokens success
      exact .andThen (ihFirst closed realFront advances.1) success
        (ihSecond (passes.closed closed) realBack advances.2)
  | chosen member _ ih =>
      simp only [Phrase.advances, Bool.and_eq_true] at advances
      exact .chosen member (ih closed (fun member => real (List.mem_append_left _ member)) advances.1)
  | otherwise foreign _ ih =>
      simp only [Phrase.advances, Bool.and_eq_true] at advances
      exact .otherwise foreign (ih closed (fun member => real (List.mem_append_right _ member)) advances.2)
  | done foreign => exact .done depth foreign
  | @last _ _ _ _ o member runs ended ih =>
      simp only [Phrase.advances, Bool.and_eq_true, Bool.not_eq_true'] at advances
      cases failure : o.failure? with
      | none =>
          have sound := runs.sound (Rule.visit_sound limit room) closed real
          exact absurd (sound.progress advances.1 failure) (ended failure)
      | some d => exact .broken member (ih closed real advances.2) failure
  | again member first success _ _ ihFirst ihRest =>
      have solid := advances
      simp only [Phrase.advances, Bool.and_eq_true] at solid
      have passes := (first.sound (Rule.visit_sound limit room) closed real).tokens success
      exact .again member (ihFirst closed real solid.2) success
        (ihRest (passes.closed closed) real advances)
  | noted _ ih => exact .noted (ih closed real advances)

end Phrase

theorem Rule.counted_visit {limit depth room : Nat} (split : depth + room = limit) (r : Rule) (k : Locals)
    (c : Cursor) (closed : c.Closed) :
    Phrase.Counted limit (.rule r) depth k c ((r.visit limit room c).toOutcome k) depth := by
  induction room generalizing depth r k c with
  | zero => exact .tooDeep r k c (by omega)
  | succ room ih =>
      have below : ∀ r k c, c.Closed →
          Phrase.Counted limit (.rule r) (depth + 1) k c ((r.visit limit room c).toOutcome k) (depth + 1) :=
        fun r k c closed => ih (by omega) r k c closed
      have body := (Phrase.runs_run (Rule.visit limit room) r.body {} c).counted below closed
        r.eof_not_mem_kindsRead r.advances_body
      exact .enter k (by omega) body

theorem Phrase.counted_iff {limit depth room left : Nat} {phrase : Phrase} {k : Locals} {c : Cursor}
    {o : Outcome} (split : depth + room = limit) (closed : c.Closed) (real : .eof ∉ phrase.kindsRead)
    (advances : phrase.advances = true) :
    Counted limit phrase depth k c o left ↔ o = phrase.run (Rule.visit limit room) k c ∧ left = depth := by
  constructor
  · intro counted
    obtain ⟨runs, same⟩ := counted.runs split closed real advances
    exact ⟨runs.eq_run.symm, same⟩
  · rintro ⟨rfl, rfl⟩
    exact (runs_run _ phrase k c).counted (Rule.counted_visit split) closed real advances

end Jack
