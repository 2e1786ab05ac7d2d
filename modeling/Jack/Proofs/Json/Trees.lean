import Jack.Proofs.Json.Reading
import Jack.Proofs.Trace.Decoding
import Mathlib.Data.List.Nodup

/-!
# Trees in structured output

The structured output of a tree is read back to the same tree, with the kinds, lexemes and places of its tokens. A
tag tells tokens from rules, since both have a field for the name of their kind.
-/

namespace Jack

/-! ## Names of kinds -/

theorem Kind.nodup_names : (all.map name).Nodup := by decide +kernel

theorem Kind.ofName?_name (kind : Kind) : ofName? kind.name = some kind := by
  have known : (ofName? kind.name).isSome :=
    List.find?_isSome.mpr ⟨kind, kind.mem_all, beq_self_eq_true kind.name⟩
  obtain ⟨found, same⟩ := Option.isSome_iff_exists.mp known
  have names : found.name = kind.name := by simpa using List.find?_some same
  rw [same, List.inj_on_of_nodup_map nodup_names found.mem_all kind.mem_all names]

/-! ## Reading trees -/

def Span.ofFields? : List (String × Json) → Option Span
  | [(a, .number start), (b, .number stop), (c, .number line)] =>
      if [a, b, c] = ["start", "end", "line"] then some ⟨start, stop, line⟩ else none
  | _ => none

def Token.ofFields? : List (String × Json) → Option Token
  | [(a, .string name), (b, .string lexeme), (c, .object place)] =>
      if [a, b, c] = ["kind", "lexeme", "span"] then
        (Kind.ofName? name).bind fun kind => (Span.ofFields? place).map fun span => ⟨kind, lexeme, span⟩
      else none
  | _ => none

mutual

def Node.ofJson? : Json → Option Node
  | .object [(a, .string tag), (b, .string name), (c, .array items)] =>
      if [a, tag, b, c] = ["type", "nonTerminal", "kind", "children"] then
        (Rule.ofName? name).bind fun rule => (Forest.ofJson? items).map fun children => .branch rule children
      else none
  | .object ((a, .string tag) :: fields) =>
      if [a, tag] = ["type", "terminal"] then (Token.ofFields? fields).map .leaf else none
  | _ => none

def Forest.ofJson? : List Json → Option (List Node)
  | [] => some []
  | item :: rest => (Node.ofJson? item).bind fun node => (Forest.ofJson? rest).map (node :: ·)

end

theorem Token.ofFields?_fields (token : Token) : ofFields? token.fields = some token := by
  rw [fields, ofFields?, if_pos rfl, token.kind.ofName?_name, Span.ofFields?, if_pos rfl]
  rfl

mutual

theorem Node.ofJson?_toJson : (node : Node) → Node.ofJson? node.toJson = some node
  | .leaf token => by
      rw [Node.toJson, Node.ofJson?, if_pos rfl, token.ofFields?_fields]
      · rfl
      -- A token has one field more than a rule, and no array.
      · simp [Token.fields]
  | .branch rule children => by
      rw [Node.toJson, Node.ofJson?, if_pos rfl, rule.ofName?_name, Forest.ofJson?_toJson children]
      rfl

theorem Forest.ofJson?_toJson : (nodes : List Node) → Forest.ofJson? (Forest.toJson nodes) = some nodes
  | [] => by rw [Forest.toJson, Forest.ofJson?]
  | node :: rest => by
      rw [Forest.toJson, Forest.ofJson?, node.ofJson?_toJson, Forest.ofJson?_toJson rest]
      rfl

end

def Node.read? (text : String) : Option Node := (Json.read text).bind ofJson?

theorem Node.read?_pretty (node : Node) : read? node.toJson.pretty = some node := by
  rw [read?, Json.read_pretty, Option.bind_some, node.ofJson?_toJson]

theorem Node.pretty_faithful :
    (∀ node : Node, read? node.toJson.pretty = some node) ∧
    Function.Injective (fun node : Node => node.toJson.pretty) ∧
    ∀ (token : Token) (rule : Rule) (children : List Node),
      (leaf token).toJson.pretty ≠ (branch rule children).toJson.pretty := by
  have injective : Function.Injective (fun node : Node => node.toJson.pretty) := by
    intro node other same
    have read := congrArg read? same
    rw [read?_pretty, read?_pretty] at read
    exact Option.some.inj read
  refine ⟨read?_pretty, injective, ?_⟩
  intro token rule children same
  cases injective same

end Jack
