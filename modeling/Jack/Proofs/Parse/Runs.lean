import Jack.Parse.Run

/-!
# Runs of phrases

Everything that reading a phrase can come to, as a relation: what a run preserves is proved by induction
on it, one case for each way in which a phrase is read.
-/

namespace Jack.Phrase

inductive Runs (visit : Rule → Cursor → Visit) : Phrase → Locals → Cursor → Outcome → Prop where
  | nothing (k : Locals) (c : Cursor) : Runs visit .nothing k c (.nothing k c)
  | refuse (violation : Violation) (k : Locals) (c : Cursor) :
      Runs visit (.refuse violation) k c (.failed violation k c)
  | read {kinds : List Kind} {k : Locals} {c : Cursor} (member : c.peek.kind ∈ kinds) :
      Runs visit (.token kinds) k c (.token k c)
  | missed {kinds : List Kind} {k : Locals} {c : Cursor} (foreign : c.peek.kind ∉ kinds) :
      Runs visit (.token kinds) k c (.failed (.unexpected kinds) k c)
  | rule (r : Rule) (k : Locals) (c : Cursor) : Runs visit (.rule r) k c ((visit r c).toOutcome k)
  | cut {front back : Phrase} {k : Locals} {c : Cursor} {o : Outcome} {d : Diagnostic}
      (first : Runs visit front k c o) (failure : o.failure? = some d) :
      Runs visit (.andThen front back) k c o
  | andThen {front back : Phrase} {k : Locals} {c : Cursor} {o later : Outcome}
      (first : Runs visit front k c o) (success : o.failure? = none)
      (second : Runs visit back o.locals o.cursor later) :
      Runs visit (.andThen front back) k c (o.append later)
  | chosen {kinds : List Kind} {chosen otherwise : Phrase} {k : Locals} {c : Cursor} {o : Outcome}
      (member : c.peek.kind ∈ kinds) (runs : Runs visit chosen k c o) :
      Runs visit (.choose kinds chosen otherwise) k c o
  | otherwise {kinds : List Kind} {chosen otherwise : Phrase} {k : Locals} {c : Cursor} {o : Outcome}
      (foreign : c.peek.kind ∉ kinds) (runs : Runs visit otherwise k c o) :
      Runs visit (.choose kinds chosen otherwise) k c o
  | done {kinds : List Kind} {round : Phrase} {k : Locals} {c : Cursor} (foreign : c.peek.kind ∉ kinds) :
      Runs visit (.many kinds round) k c (.nothing k c)
  | last {kinds : List Kind} {round : Phrase} {k : Locals} {c : Cursor} {o : Outcome}
      (member : c.peek.kind ∈ kinds) (runs : Runs visit round k c o)
      (ended : o.failure? = none → ¬ o.cursor.unread.length < c.unread.length) :
      Runs visit (.many kinds round) k c o
  | again {kinds : List Kind} {round : Phrase} {k : Locals} {c : Cursor} {o later : Outcome}
      (member : c.peek.kind ∈ kinds) (first : Runs visit round k c o) (success : o.failure? = none)
      (progress : o.cursor.unread.length < c.unread.length)
      (rest : Runs visit (.many kinds round) o.locals o.cursor later) :
      Runs visit (.many kinds round) k c (o.append later)
  | noted {note : Note} {body : Phrase} {k : Locals} {c : Cursor} {o : Outcome}
      (runs : Runs visit body k c o) : Runs visit (.noted note body) k c (o.noted c.peek note)

variable {visit : Rule → Cursor → Visit}

theorem runs_repeatWhile {kinds : List Kind} {round : Phrase}
    (ih : ∀ k c, Runs visit round k c (round.run visit k c)) (k : Locals) (c : Cursor) :
    Runs visit (.many kinds round) k c (repeatWhile kinds (round.run visit) k c) := by
  fun_induction repeatWhile kinds (round.run visit) k c with
  | case1 k c member o progress rest =>
      have success : o.failure? = none := Option.isNone_iff_eq_none.mp progress.1
      rw [Outcome.andThen_of_success success]
      exact .again member (ih k c) success progress.2 rest
  | case2 k c member o ended =>
      refine .last member (ih k c) fun success progress => ended ⟨?_, progress⟩
      rw [success]
      rfl
  | case3 k c foreign => exact .done foreign

theorem runs_run (visit : Rule → Cursor → Visit) (phrase : Phrase) (k : Locals) (c : Cursor) :
    Runs visit phrase k c (phrase.run visit k c) := by
  induction phrase generalizing k c with
  | nothing => exact .nothing k c
  | refuse violation => exact .refuse violation k c
  | token kinds =>
      by_cases member : c.peek.kind ∈ kinds
      · simpa [run, member] using Runs.read member
      · simpa [run, member] using Runs.missed member
  | rule r => exact .rule r k c
  | andThen front back ihFront ihBack =>
      rw [run]
      cases h : (front.run visit k c).failure? with
      | none =>
          rw [Outcome.andThen_of_success h]
          exact .andThen (ihFront k c) h (ihBack _ _)
      | some d =>
          rw [Outcome.andThen_of_failure h]
          exact .cut (ihFront k c) h
  | choose kinds chosen otherwise ihChosen ihOtherwise =>
      by_cases member : c.peek.kind ∈ kinds
      · simpa [run, member] using Runs.chosen member (ihChosen k c)
      · simpa [run, member] using Runs.otherwise member (ihOtherwise k c)
  | many kinds round ih => exact runs_repeatWhile ih k c
  | noted note body ih => exact .noted (ih k c)

theorem Runs.eq_run {phrase : Phrase} {k : Locals} {c : Cursor} {o : Outcome}
    (runs : Runs visit phrase k c o) : phrase.run visit k c = o := by
  induction runs with
  | nothing | refuse | rule => rfl
  | read member | missed member => simp [run, member]
  | cut _ failure ih => rw [run, ih, Outcome.andThen_of_failure failure]
  | andThen _ success _ ihFirst ihSecond =>
      rw [run, ihFirst, Outcome.andThen_of_success success, ihSecond]
  | chosen member _ ih | otherwise member _ ih => simp [run, member, ih]
  | done foreign =>
      rw [run, repeatWhile]
      simp [foreign]
  | last member _ ended ih =>
      rw [run, repeatWhile]
      simp only [member, ↓reduceIte, ih]
      rw [dif_neg]
      rintro ⟨success, progress⟩
      exact ended (Option.isNone_iff_eq_none.mp success) progress
  | again member _ success progress _ ihFirst ihRest =>
      rw [run, repeatWhile]
      simp only [member, ↓reduceIte, ihFirst]
      rw [dif_pos ⟨Option.isNone_iff_eq_none.mpr success, progress⟩, Outcome.andThen_of_success success]
      exact congrArg _ ihRest
  | noted _ ih => rw [run, ih]

end Jack.Phrase
