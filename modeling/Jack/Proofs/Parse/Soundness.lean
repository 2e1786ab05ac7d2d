import Jack.Proofs.Grammar.Spelling
import Jack.Proofs.Parse.Runs

/-!
# What a run reads

A run moves the cursor over some tokens. If it succeeds, its nodes are derived, they spell the phrase, and
these tokens are theirs; if it fails, it names the token it stopped at.
-/

namespace Jack

namespace Cursor

/-- The end token stands for the end of input. -/
def Closed (c : Cursor) : Prop := c.stream.endToken.kind = .eof

structure Passes (c : Cursor) (tokens : List Token) (d : Cursor) : Prop where
  unread : c.unread = tokens ++ d.unread
  current : d.current = tokens.getLast?.or c.current
  endToken : d.stream.endToken = c.stream.endToken

theorem Passes.refl (c : Cursor) : c.Passes [] c := ⟨rfl, rfl, rfl⟩

theorem Passes.trans {c d e : Cursor} {tokens more : List Token} (first : c.Passes tokens d)
    (second : d.Passes more e) : c.Passes (tokens ++ more) e where
  unread := by rw [first.unread, second.unread, List.append_assoc]
  current := by rw [second.current, first.current, List.getLast?_append, Option.or_assoc]
  endToken := second.endToken.trans first.endToken

theorem Passes.closed {c d : Cursor} {tokens : List Token} (passes : c.Passes tokens d)
    (closed : c.Closed) : d.Closed := by
  rw [Closed, passes.endToken]
  exact closed

theorem unread_eq_cons {c : Cursor} (closed : c.Closed) (token : c.peek.kind ≠ .eof) :
    c.unread = c.peek :: c.unread.tail := by
  rw [peek_eq] at token ⊢
  cases unread : c.unread with
  | nil =>
      rw [unread] at token
      exact absurd closed token
  | cons first rest => rfl

theorem passes_advance {c : Cursor} (closed : c.Closed) (token : c.peek.kind ≠ .eof) :
    c.Passes [c.peek] c.advance :=
  ⟨unread_eq_cons closed token, rfl, rfl⟩

end Cursor

namespace Phrase

def kindsRead : Phrase → List Kind
  | .nothing => []
  | .refuse _ => []
  | .token kinds => kinds
  | .rule _ => []
  | .andThen front back => front.kindsRead ++ back.kindsRead
  | .choose _ chosen otherwise => chosen.kindsRead ++ otherwise.kindsRead
  | .many _ round => round.kindsRead
  | .noted _ body => body.kindsRead

structure Sound (phrase : Phrase) (c : Cursor) (o : Outcome) : Prop where
  passes : ∃ tokens, c.Passes tokens o.cursor
  found : ∀ d, o.failure? = some d → ∃ violation, d = .grammar violation o.cursor.peek
  spells : o.failure? = none → phrase.Spells (o.nodes.map Node.label)
  derived : o.failure? = none → ∀ node ∈ o.nodes, node.Derived
  tokens : o.failure? = none → c.Passes (Forest.tokens o.nodes) o.cursor

theorem sound_nothing (k : Locals) (c : Cursor) : Sound .nothing c (.nothing k c) where
  passes := ⟨[], .refl c⟩
  found := by simp [Outcome.nothing]
  spells := by simp [Outcome.nothing]
  derived := by simp [Outcome.nothing]
  tokens := fun _ => .refl c

theorem sound_failed (phrase : Phrase) (violation : Violation) (k : Locals) (c : Cursor) :
    Sound phrase c (.failed violation k c) where
  passes := ⟨[], .refl c⟩
  found := by
    rintro d ⟨⟩
    exact ⟨violation, rfl⟩
  spells := nofun
  derived := nofun
  tokens := nofun

theorem sound_token {kinds : List Kind} {c : Cursor} (k : Locals) (closed : c.Closed) (real : .eof ∉ kinds)
    (member : c.peek.kind ∈ kinds) : Sound (.token kinds) c (.token k c) := by
  have token : c.peek.kind ≠ .eof := fun same => real (same ▸ member)
  have passes := Cursor.passes_advance closed token
  exact {
    passes := ⟨_, passes⟩
    found := nofun
    spells := fun _ => .token member
    derived := fun _ => by simpa [Outcome.token] using Node.Derived.leaf c.peek
    tokens := fun _ => by simpa [Outcome.token, Node.tokens] using passes }

-- Loops and sequences put outcomes together in the same way; the grammar tells them apart.
theorem Sound.append {front back whole : Phrase} {c : Cursor} {o later : Outcome}
    (join : ∀ {before after}, front.Spells before → back.Spells after → whole.Spells (before ++ after))
    (first : front.Sound c o) (success : o.failure? = none) (second : back.Sound o.cursor later) :
    whole.Sound c (o.append later) where
  passes := by
    obtain ⟨more, passes⟩ := second.passes
    exact ⟨_, (first.tokens success).trans passes⟩
  found := second.found
  spells := by
    intro done
    rw [Outcome.append, List.map_append]
    exact join (first.spells success) (second.spells done)
  derived := by
    intro done node member
    rcases List.mem_append.mp member with before | after
    · exact first.derived success node before
    · exact second.derived done node after
  tokens := by
    intro done
    rw [Outcome.append, Forest.tokens_append]
    exact (first.tokens success).trans (second.tokens done)

theorem Sound.mono {front whole : Phrase} {c : Cursor} {o : Outcome}
    (join : ∀ {labels}, front.Spells labels → whole.Spells labels) (sound : front.Sound c o) :
    whole.Sound c o where
  passes := sound.passes
  found := sound.found
  spells := fun success => join (sound.spells success)
  derived := sound.derived
  tokens := sound.tokens

theorem Sound.cut {front whole : Phrase} {c : Cursor} {o : Outcome} {d : Diagnostic}
    (sound : front.Sound c o) (failure : o.failure? = some d) : whole.Sound c o where
  passes := sound.passes
  found := sound.found
  spells := fun success => by simp [failure] at success
  derived := sound.derived
  tokens := sound.tokens

theorem Sound.noted {body : Phrase} {c : Cursor} {o : Outcome} (sound : body.Sound c o) (note : Note) :
    (Phrase.noted note body).Sound c (o.noted c.peek note) where
  passes := by simpa using sound.passes
  found := by simpa using sound.found
  spells := by simpa using sound.spells
  derived := by simpa using sound.derived
  tokens := by simpa using sound.tokens

def RulesSound (visit : Rule → Cursor → Visit) : Prop :=
  ∀ (r : Rule) (k : Locals) (c : Cursor), c.Closed → (Phrase.rule r).Sound c ((visit r c).toOutcome k)

theorem Runs.sound {visit : Rule → Cursor → Visit} (rules : RulesSound visit)
    {phrase : Phrase} {k : Locals} {c : Cursor} {o : Outcome} (runs : Runs visit phrase k c o)
    (closed : c.Closed) (real : .eof ∉ phrase.kindsRead) : phrase.Sound c o := by
  induction runs with
  | nothing k c => exact sound_nothing k c
  | refuse violation k c => exact sound_failed _ violation k c
  | read member => exact sound_token _ closed real member
  | missed foreign => exact sound_failed _ _ _ _
  | rule r k c => exact rules r k c closed
  | cut _ failure ih =>
      exact (ih closed (fun member => real (List.mem_append_left _ member))).cut failure
  | andThen _ success _ ihFirst ihSecond =>
      have first := ihFirst closed (fun member => real (List.mem_append_left _ member))
      exact first.append .andThen success (ihSecond ((first.tokens success).closed closed)
        (fun member => real (List.mem_append_right _ member)))
  | chosen _ _ ih =>
      exact (ih closed (fun member => real (List.mem_append_left _ member))).mono .chosen
  | otherwise _ _ ih =>
      exact (ih closed (fun member => real (List.mem_append_right _ member))).mono .otherwise
  | done _ => exact (sound_nothing _ _).mono (fun h => by cases h; exact .done _ _)
  | last _ _ _ ih =>
      exact (ih closed real).mono (fun h => by simpa using Spells.again h (.done _ _))
  | again _ _ success _ _ ihFirst ihRest =>
      have first := ihFirst closed real
      exact first.append .again success (ihRest ((first.tokens success).closed closed) real)
  | noted _ ih => exact (ih closed real).noted _

end Phrase

namespace Rule

theorem eof_not_mem_kindsRead (rule : Rule) : .eof ∉ rule.body.kindsRead := by
  cases rule <;> decide

theorem sound_enclose {rule : Rule} {c : Cursor} {o : Outcome} (sound : rule.body.Sound c o) (k : Locals) :
    (Phrase.rule rule).Sound c ((o.enclose rule c.peek).toOutcome k) := by
  rw [Visit.toOutcome_enclose]
  refine ⟨sound.passes, sound.found, ?_, ?_, ?_⟩
  all_goals
    intro success
    change o.failure? = none at success
    simp only [success, ↓reduceIte]
  · exact .rule rule
  · intro node member
    rw [List.mem_singleton.mp member]
    exact .branch (rule.body_spells_iff.mp (sound.spells success)) (sound.derived success)
  · simpa [Node.tokens] using sound.tokens success

theorem visit_sound (limit room : Nat) (rule : Rule) (k : Locals) (c : Cursor) (closed : c.Closed) :
    (Phrase.rule rule).Sound c ((rule.visit limit room c).toOutcome k) := by
  induction room generalizing rule k c with
  | zero => exact Phrase.sound_failed _ _ k c
  | succ room ih =>
      exact sound_enclose ((Phrase.runs_run _ rule.body {} c).sound ih closed rule.eof_not_mem_kindsRead) k

end Rule

end Jack
