import Jack.Proofs.Parse.Completeness

/-!
# A class is read exactly when it is derived

Parsing succeeds with a tree if and only if the tree is a derivation tree of a class, its tokens begin the
source, and it is not deeper than the nesting limit. At most one tree is of this kind, so that the grammar
is unambiguous.
-/

namespace Jack

theorem Cursor.closed_atStart (tokens : List Token) (endOffset endLine : Nat) :
    (Cursor.atStart (.ofTokens tokens endOffset endLine)).Closed := rfl

theorem Rule.visit_derives {limit room : Nat} {rule : Rule} {c : Cursor} {tree : Node} (closed : c.Closed)
    (parsed : (rule.visit limit room c).result = .ok tree) :
    rule.Derives tree ∧ c.Passes tree.tokens (rule.visit limit room c).cursor := by
  obtain ⟨success, nodes⟩ := Visit.result_eq_ok_iff.mp parsed
  have sound := rule.visit_sound limit room {} c closed
  have spells := sound.spells success
  have derived := sound.derived success
  have passes := sound.tokens success
  rw [nodes] at spells derived passes
  refine ⟨⟨?_, derived tree (by simp)⟩, ?_⟩
  · simpa using spells
  · simpa using passes

theorem parseClass_takes {tokens : List Token} {tree : Node} (limit endOffset endLine : Nat)
    (derives : Rule.class.Derives tree) (starts : tree.tokens <+: tokens) :
    ((parseClass limit (.ofTokens tokens endOffset endLine)).toOutcome {}).Takes limit limit [tree]
      (.atStart (.ofTokens tokens endOffset endLine)) := by
  obtain ⟨rest, rfl⟩ := starts
  exact Rule.visit_takes limit limit .class tree {} _ rest derives (Cursor.closed_atStart _ _ _) rfl
    (Kind.mem_all _)

theorem parseClass_of_derives {limit : Nat} {tokens : List Token} {tree : Node} (endOffset endLine : Nat)
    (derives : Rule.class.Derives tree) (starts : tree.tokens <+: tokens) (fits : tree.depth ≤ limit) :
    (parseClass limit (.ofTokens tokens endOffset endLine)).result = .ok tree := by
  cases parseClass_takes limit endOffset endLine derives starts with
  | whole _ success read _ => exact Visit.result_eq_ok_iff.mpr ⟨success, read⟩
  | cut deep _ _ =>
      rw [Forest.depth_singleton] at deep
      omega

theorem derives_of_parseClass {limit : Nat} {tokens : List Token} {endOffset endLine : Nat} {tree : Node}
    (parsed : (parseClass limit (.ofTokens tokens endOffset endLine)).result = .ok tree) :
    Rule.class.Derives tree ∧ tree.tokens <+: tokens ∧ tree.depth ≤ limit := by
  obtain ⟨derives, passes⟩ := Rule.visit_derives (Cursor.closed_atStart tokens endOffset endLine) parsed
  have starts : tree.tokens <+: tokens := ⟨_, passes.unread.symm⟩
  refine ⟨derives, starts, ?_⟩
  cases parseClass_takes limit endOffset endLine derives starts with
  | whole fits _ _ _ => simpa using fits
  | cut _ failure _ =>
      rw [(Visit.result_eq_ok_iff.mp parsed).1] at failure
      cases failure

theorem class_unique {tokens : List Token} {tree other : Node} (derives : Rule.class.Derives tree)
    (starts : tree.tokens <+: tokens) (derives' : Rule.class.Derives other)
    (starts' : other.tokens <+: tokens) : tree = other := by
  have parsed := parseClass_of_derives 0 0 derives starts (Nat.le_max_left tree.depth other.depth)
  have parsed' := parseClass_of_derives 0 0 derives' starts' (Nat.le_max_right tree.depth other.depth)
  rw [parsed] at parsed'
  exact Except.ok.inj parsed'

theorem parseClass_exact (tokens : List Token) (endOffset endLine limit : Nat) :
    (∀ tree, (parseClass limit (.ofTokens tokens endOffset endLine)).result = .ok tree ↔
      Rule.class.Derives tree ∧ tree.tokens <+: tokens ∧ tree.depth ≤ limit) ∧
    ∀ tree other, Rule.class.Derives tree → tree.tokens <+: tokens →
      Rule.class.Derives other → other.tokens <+: tokens → tree = other := by
  constructor
  · intro tree
    constructor
    · exact derives_of_parseClass
    · rintro ⟨derives, starts, fits⟩
      exact parseClass_of_derives endOffset endLine derives starts fits
  · intro tree other derives starts derives' starts'
    exact class_unique derives starts derives' starts'

def Token.bare (kind : Kind) : Token := ⟨kind, kind.describe, .origin⟩

/-- `class A { function void f() { return -x; } }`, and an end of input in front of one more token. -/
def negationSource : List Token :=
  [.bare (.keyword .class), .bare .ident, .bare (.symbol .lBrace), .bare (.keyword .function),
    .bare (.keyword .void), .bare .ident, .bare (.symbol .lParen), .bare (.symbol .rParen),
    .bare (.symbol .lBrace), .bare (.keyword .return), .bare (.symbol .minus), .bare .ident,
    .bare (.symbol .semicolon), .bare (.symbol .rBrace), .bare (.symbol .rBrace), .bare .eof, .bare .ident]

def negationTree : Node :=
  .branch .class [.leaf (.bare (.keyword .class)), .leaf (.bare .ident), .leaf (.bare (.symbol .lBrace)),
    .branch .subroutineDec [.leaf (.bare (.keyword .function)), .leaf (.bare (.keyword .void)),
      .leaf (.bare .ident), .leaf (.bare (.symbol .lParen)), .branch .parameterList [],
      .leaf (.bare (.symbol .rParen)),
      .branch .subroutineBody [.leaf (.bare (.symbol .lBrace)),
        .branch .statements [.branch .returnStatement [.leaf (.bare (.keyword .return)),
          .branch .expression [.branch .term [.leaf (.bare (.symbol .minus)),
            .branch .term [.leaf (.bare .ident)]]],
          .leaf (.bare (.symbol .semicolon))]],
        .leaf (.bare (.symbol .rBrace))]],
    .leaf (.bare (.symbol .rBrace))]

theorem parseClass_exact_negation :
    Rule.class.Derives negationTree ∧ negationTree.tokens <+: negationSource ∧ negationTree.depth ≤ 8 ∧
      ∀ other, Rule.class.Derives other → other.tokens <+: negationSource → negationTree = other := by
  obtain ⟨exact, unique⟩ := parseClass_exact negationSource 0 1 8
  have parsed : (parseClass 8 (.ofTokens negationSource 0 1)).result = .ok negationTree :=
    Visit.result_eq_ok_iff.mpr (by decide +kernel)
  obtain ⟨derives, starts, fits⟩ := (exact negationTree).mp parsed
  exact ⟨derives, starts, fits, fun other => unique negationTree other derives starts⟩

end Jack
