import Jack.Proofs.Parse.Soundness

/-!
# A run depends on what it reads and the token it stops at

Two cursors before the same tokens and the same next token after them lead to the same outcome, as long as
the run does not go beyond these tokens: what comes later and what was read before is not looked at.
-/

namespace Jack

/-- The cursors agree up to `rest` and `other`, which begin with the same token. -/
structure Cursor.Alike (rest other : List Token) (c d : Cursor) : Prop where
  split : ∃ front, c.unread = front ++ rest ∧ d.unread = front ++ other
  ahead : rest.headD c.stream.endToken = other.headD d.stream.endToken

namespace Cursor.Alike

variable {rest other : List Token} {c d c' d' : Cursor}

theorem peek_eq (alike : Alike rest other c d) : d.peek = c.peek := by
  obtain ⟨front, unread, unread'⟩ := alike.split
  rw [Cursor.peek_eq, Cursor.peek_eq, unread, unread']
  cases front with
  | nil => exact alike.ahead.symm
  | cons token front => rfl

theorem length_lt_iff (alike : Alike rest other c d) (alike' : Alike rest other c' d') :
    d'.unread.length < d.unread.length ↔ c'.unread.length < c.unread.length := by
  obtain ⟨front, unread, unread'⟩ := alike.split
  obtain ⟨back, later, later'⟩ := alike'.split
  rw [unread, unread', later, later']
  simp only [List.length_append]
  omega

theorem advance (alike : Alike rest other c d) (cons : c.unread = c.peek :: c.unread.tail)
    (within : rest <:+ c.advance.unread) : Alike rest other c.advance d.advance := by
  obtain ⟨front, unread, unread'⟩ := alike.split
  refine ⟨?_, alike.ahead⟩
  cases front with
  | nil =>
      have short := within.length_le
      rw [List.nil_append] at unread
      rw [Cursor.unread_advance, ← unread, cons] at short
      simp only [List.length_cons, List.tail_cons] at short
      omega
  | cons token front => exact ⟨front, by simp [unread], by simp [unread']⟩

end Cursor.Alike

namespace Outcome

structure Alike (rest other : List Token) (o p : Outcome) : Prop where
  nodes : p.nodes = o.nodes
  journal : p.journal = o.journal
  locals : p.locals = o.locals
  failure : p.failure? = o.failure?
  cursor : o.cursor.Alike rest other p.cursor

variable {rest other : List Token} {o p : Outcome}

theorem alike_failed {c d : Cursor} (violation : Violation) (k : Locals) (alike : c.Alike rest other d) :
    (failed violation k c).Alike rest other (failed violation k d) :=
  ⟨rfl, rfl, rfl, by simp [failed, alike.peek_eq], alike⟩

theorem Alike.append {later after : Outcome} (first : o.Alike rest other p)
    (second : later.Alike rest other after) :
    (o.append later).Alike rest other (p.append after) where
  nodes := by simp [Outcome.append, first.nodes, second.nodes]
  journal := by simp [Outcome.append, first.journal, second.journal]
  locals := second.locals
  failure := second.failure
  cursor := second.cursor

theorem Alike.noted (alike : o.Alike rest other p) (first : Token) (note : Note) :
    (o.noted first note).Alike rest other (p.noted first note) where
  nodes := by simpa using alike.nodes
  journal := by
    unfold Outcome.noted
    rw [alike.failure]
    split <;> simp [alike.journal, alike.locals]
  locals := by
    unfold Outcome.noted
    rw [alike.failure]
    split <;> simp [alike.locals]
  failure := by simpa using alike.failure
  cursor := by simpa using alike.cursor

theorem Alike.enclose {c d : Cursor} (same : d.peek = c.peek) (alike : o.Alike rest other p)
    (rule : Rule) (k : Locals) :
    ((o.enclose rule c.peek).toOutcome k).Alike rest other ((p.enclose rule d.peek).toOutcome k) := by
  rw [Visit.toOutcome_enclose, Visit.toOutcome_enclose]
  exact ⟨by simp [alike.failure, alike.nodes], by simp [same, alike.journal],
    by simp [alike.failure, alike.locals], alike.failure, alike.cursor⟩

end Outcome

namespace Phrase

def RulesLocal (visit : Rule → Cursor → Visit) : Prop :=
  ∀ (r : Rule) (rest other : List Token) (k : Locals) (c d : Cursor), c.Closed → c.Alike rest other d →
    rest <:+ ((visit r c).toOutcome k).cursor.unread →
    ((visit r c).toOutcome k).Alike rest other ((visit r d).toOutcome k)

theorem Runs.alike {visit : Rule → Cursor → Visit} (sound : RulesSound visit) (rules : RulesLocal visit)
    {phrase : Phrase} {k : Locals} {c : Cursor} {o : Outcome} (runs : Runs visit phrase k c o)
    (closed : c.Closed) (real : .eof ∉ phrase.kindsRead) {rest other : List Token} {d : Cursor}
    (alike : c.Alike rest other d) (within : rest <:+ o.cursor.unread) :
    ∃ p, Runs visit phrase k d p ∧ o.Alike rest other p := by
  induction runs generalizing d with
  | nothing k c => exact ⟨_, .nothing k d, ⟨rfl, rfl, rfl, rfl, alike⟩⟩
  | refuse violation k c => exact ⟨_, .refuse violation k d, Outcome.alike_failed violation k alike⟩
  | @read kinds k c member =>
      have token : c.peek.kind ≠ .eof := fun same => real (same ▸ member)
      have advance := alike.advance (Cursor.unread_eq_cons closed token) within
      refine ⟨_, .read (by rw [alike.peek_eq]; exact member), ⟨?_, rfl, rfl, rfl, advance⟩⟩
      simp [Outcome.token, alike.peek_eq]
  | missed foreign =>
      exact ⟨_, .missed (by rw [alike.peek_eq]; exact foreign), Outcome.alike_failed _ _ alike⟩
  | rule r k c => exact ⟨_, .rule r k d, rules r rest other k c d closed alike within⟩
  | cut _ failure ih =>
      obtain ⟨p, runs, same⟩ := ih closed (fun member => real (List.mem_append_left _ member)) alike within
      exact ⟨p, .cut runs (same.failure.trans failure), same⟩
  | andThen first success second ihFirst ihSecond =>
      have realFront := fun member => real (List.mem_append_left _ member)
      have realBack := fun member => real (List.mem_append_right _ member)
      have closed' := ((first.sound sound closed realFront).tokens success).closed closed
      obtain ⟨tokens, passes⟩ := (second.sound sound closed' realBack).passes
      obtain ⟨p, runs, same⟩ := ihFirst closed realFront alike (within.trans ⟨tokens, passes.unread.symm⟩)
      obtain ⟨q, runs', same'⟩ := ihSecond closed' realBack same.cursor within
      rw [← same.locals] at runs'
      exact ⟨_, .andThen runs (same.failure.trans success) runs', same.append same'⟩
  | chosen member _ ih =>
      obtain ⟨p, runs, same⟩ := ih closed (fun member => real (List.mem_append_left _ member)) alike within
      exact ⟨p, .chosen (by rw [alike.peek_eq]; exact member) runs, same⟩
  | otherwise foreign _ ih =>
      obtain ⟨p, runs, same⟩ := ih closed (fun member => real (List.mem_append_right _ member)) alike within
      exact ⟨p, .otherwise (by rw [alike.peek_eq]; exact foreign) runs, same⟩
  | done foreign =>
      exact ⟨_, .done (by rw [alike.peek_eq]; exact foreign), ⟨rfl, rfl, rfl, rfl, alike⟩⟩
  | last member _ ended ih =>
      obtain ⟨p, runs, same⟩ := ih closed real alike within
      refine ⟨p, .last (by rw [alike.peek_eq]; exact member) runs fun success => ?_, same⟩
      rw [alike.length_lt_iff same.cursor]
      exact ended (same.failure.symm.trans success)
  | again member first success progress rest' ihFirst ihRest =>
      have closed' := ((first.sound sound closed real).tokens success).closed closed
      obtain ⟨tokens, passes⟩ := (rest'.sound sound closed' real).passes
      obtain ⟨p, runs, same⟩ := ihFirst closed real alike (within.trans ⟨tokens, passes.unread.symm⟩)
      obtain ⟨q, runs', same'⟩ := ihRest closed' real same.cursor within
      rw [← same.locals] at runs'
      refine ⟨_, .again (by rw [alike.peek_eq]; exact member) runs (same.failure.trans success) ?_ runs',
        same.append same'⟩
      exact (alike.length_lt_iff same.cursor).mpr progress
  | noted _ ih =>
      rw [Outcome.cursor_noted] at within
      obtain ⟨p, runs, same⟩ := ih closed real alike within
      refine ⟨_, .noted runs, ?_⟩
      rw [alike.peek_eq]
      exact same.noted _ _

end Phrase

theorem Rule.visit_alike (limit room : Nat) : Phrase.RulesLocal (Rule.visit limit room) := by
  induction room with
  | zero =>
      intro rule rest other k c d _ alike _
      exact Outcome.alike_failed _ k alike
  | succ room ih =>
      intro rule rest other k c d closed alike within
      rw [Rule.visit, Rule.visit]
      have runs := Phrase.runs_run (Rule.visit limit room) rule.body {} c
      have within' : rest <:+ (rule.body.run (Rule.visit limit room) {} c).cursor.unread := by
        rw [Rule.visit, Visit.toOutcome_enclose] at within
        exact within
      obtain ⟨p, runs', same⟩ := runs.alike (visit_sound limit room) ih closed
        rule.eof_not_mem_kindsRead alike within'
      rw [runs'.eq_run]
      exact same.enclose alike.peek_eq rule k

end Jack
