import Jack.Text.Markup
import Mathlib.Data.List.Basic

/-!
# Entities

Escaping is undone by one pass that replaces the entities by their characters. What it produces is exactly
the text in which nothing can be taken for markup and each `&` begins an entity.
-/

namespace Jack

namespace Markup

/-- Replaces the entities by their characters, in one pass from left to right. -/
def unescape : List Char → List Char
  | '&' :: 'l' :: 't' :: ';' :: rest => '<' :: unescape rest
  | '&' :: 'g' :: 't' :: ';' :: rest => '>' :: unescape rest
  | '&' :: 'a' :: 'm' :: 'p' :: ';' :: rest => '&' :: unescape rest
  | '&' :: 'q' :: 'u' :: 'o' :: 't' :: ';' :: rest => '"' :: unescape rest
  | c :: rest => c :: unescape rest
  | [] => []

def entities : List String := ["&lt;", "&gt;", "&amp;", "&quot;"]

/-- Text that can stand inside markup: it has no character that delimits markup, and each `&` in it begins
an entity. -/
structure Safe (text : List Char) : Prop where
  unreserved : ∀ c ∈ ['<', '>', '"'], c ∉ text
  begins : ∀ rest, '&' :: rest <:+ text → ∃ entity ∈ entities, entity.toList <+: '&' :: rest

/-! ## Undoing -/

theorem unescape_cons {c : Char} (plain : c ≠ '&') (rest : List Char) :
    unescape (c :: rest) = c :: unescape rest := by
  rw [unescape.eq_def]
  split <;> simp_all

theorem entity_cases (c : Char) :
    c = '<' ∨ c = '>' ∨ c = '&' ∨ c = '"' ∨ c ∉ ['<', '>', '&', '"'] ∧ entity c = [c] := by
  unfold entity
  split <;> simp_all

theorem unescape_entity (c : Char) (rest : List Char) : unescape (entity c ++ rest) = c :: unescape rest := by
  rcases entity_cases c with rfl | rfl | rfl | rfl | ⟨plain, self⟩
  · rfl
  · rfl
  · rfl
  · rfl
  · have other : c ≠ '&' := by
      rintro rfl
      simp at plain
    rw [self]
    exact unescape_cons other rest

theorem unescape_escape (text : String) : unescape (escape text).toList = text.toList := by
  rw [escape, String.toList_ofList]
  induction text.toList with
  | nil => rfl
  | cons c rest ih => rw [List.flatMap_cons, unescape_entity, ih]

-- What looks like an entity in the text itself comes back as it was.
example : unescape (escape "&lt;&amp;lt;").toList = "&lt;&amp;lt;".toList := by decide +kernel

theorem escape_append (front back : String) : escape (front ++ back) = escape front ++ escape back := by
  rw [escape, escape, escape, String.toList_append, List.flatMap_append, String.ofList_append]

/-! ## Safety -/

namespace Safe

variable {text rest : List Char}

theorem nil : Safe [] := ⟨by simp, by simp⟩

theorem of_suffix (safe : Safe text) (back : rest <:+ text) : Safe rest where
  unreserved c reserved member := safe.unreserved c reserved (back.subset member)
  begins after inside := safe.begins after (inside.trans back)

theorem cons {c : Char} (safe : Safe rest) (unreserved : c ∉ ['<', '>', '"'])
    (begins : c = '&' → ∃ entity ∈ entities, entity.toList <+: '&' :: rest) : Safe (c :: rest) where
  unreserved d reserved member := by
    rcases List.mem_cons.mp member with rfl | later
    · exact unreserved reserved
    · exact safe.unreserved d reserved later
  begins after inside := by
    rcases List.suffix_cons_iff.mp inside with here | later
    · obtain ⟨rfl, rfl⟩ := List.cons.inj here
      exact begins rfl
    · exact safe.begins after later

theorem append (safe : Safe rest) {front : List Char} (plain : ∀ c ∈ front, c ∉ ['<', '>', '&', '"']) :
    Safe (front ++ rest) := by
  induction front with
  | nil => exact safe
  | cons c front ih =>
      obtain ⟨here, others⟩ := List.forall_mem_cons.mp plain
      have more := ih others
      refine more.cons ?_ ?_
      · simp_all
      · rintro rfl
        simp at here

theorem entity_append (safe : Safe rest) {entity : String} (known : entity ∈ entities) :
    Safe (entity.toList ++ rest) := by
  obtain ⟨name, same, plain⟩ :
      ∃ name, entity.toList = '&' :: name ∧ ∀ c ∈ name, c ∉ ['<', '>', '&', '"'] := by
    simp only [entities, List.mem_cons, List.not_mem_nil, or_false] at known
    rcases known with rfl | rfl | rfl | rfl
    · exact ⟨['l', 't', ';'], rfl, by simp⟩
    · exact ⟨['g', 't', ';'], rfl, by simp⟩
    · exact ⟨['a', 'm', 'p', ';'], rfl, by simp⟩
    · exact ⟨['q', 'u', 'o', 't', ';'], rfl, by simp⟩
  have more := safe.append plain
  rw [same]
  exact more.cons (by simp) fun _ => ⟨entity, known, by rw [same]; exact List.prefix_append _ rest⟩

theorem exists_entity (safe : Safe ('&' :: rest)) :
    ∃ after, rest = 'l' :: 't' :: ';' :: after ∨ rest = 'g' :: 't' :: ';' :: after ∨
      rest = 'a' :: 'm' :: 'p' :: ';' :: after ∨ rest = 'q' :: 'u' :: 'o' :: 't' :: ';' :: after := by
  obtain ⟨entity, known, after, same⟩ := safe.begins rest List.suffix_rfl
  have rest_eq := (congrArg List.tail same).symm
  refine ⟨after, ?_⟩
  simp only [entities, List.mem_cons, List.not_mem_nil, or_false] at known
  rcases known with rfl | rfl | rfl | rfl
  · exact Or.inl rest_eq
  · exact Or.inr (Or.inl rest_eq)
  · exact Or.inr (Or.inr (Or.inl rest_eq))
  · exact Or.inr (Or.inr (Or.inr rest_eq))

end Safe

theorem safe_entity_append (c : Char) {rest : List Char} (safe : Safe rest) : Safe (entity c ++ rest) := by
  rcases entity_cases c with rfl | rfl | rfl | rfl | ⟨plain, self⟩
  · exact safe.entity_append (show "&lt;" ∈ entities by simp [entities])
  · exact safe.entity_append (show "&gt;" ∈ entities by simp [entities])
  · exact safe.entity_append (show "&amp;" ∈ entities by simp [entities])
  · exact safe.entity_append (show "&quot;" ∈ entities by simp [entities])
  · rw [self]
    exact safe.append (by simpa using plain)

theorem safe_escape (text : String) : Safe (escape text).toList := by
  rw [escape, String.toList_ofList]
  induction text.toList with
  | nil => exact .nil
  | cons c rest ih =>
      rw [List.flatMap_cons]
      exact safe_entity_append c ih

theorem not_mem_escape {c : Char} (reserved : c ∈ ['<', '>', '"']) (text : String) :
    c ∉ (escape text).toList := (safe_escape text).unreserved c reserved

theorem flatMap_unescape {text : List Char} (safe : Safe text) : (unescape text).flatMap entity = text := by
  fun_induction unescape text with
  | case1 rest ih | case2 rest ih | case3 rest ih | case4 rest ih =>
      have back := safe.of_suffix (by simp [List.suffix_cons_iff] : rest <:+ _)
      rw [List.flatMap_cons, ih back]
      rfl
  | case5 c rest noLt noGt noAmp noQuot ih =>
      have self : entity c = [c] := by
        rcases entity_cases c with rfl | rfl | rfl | rfl | ⟨-, self⟩
        · exact absurd (by simp) (safe.unreserved '<' (by simp))
        · exact absurd (by simp) (safe.unreserved '>' (by simp))
        · obtain ⟨after, same | same | same | same⟩ := safe.exists_entity
          · exact (noLt after rfl same).elim
          · exact (noGt after rfl same).elim
          · exact (noAmp after rfl same).elim
          · exact (noQuot after rfl same).elim
        · exact absurd (by simp) (safe.unreserved '"' (by simp))
        · exact self
      rw [List.flatMap_cons, self, ih (safe.of_suffix (List.suffix_cons c rest)), List.singleton_append]
  | case6 => rfl

theorem safe_iff (text : String) :
    Safe text.toList ↔ escape (String.ofList (unescape text.toList)) = text := by
  constructor
  · intro safe
    rw [escape, String.toList_ofList, flatMap_unescape safe, String.ofList_toList]
  · intro same
    rw [← same]
    exact safe_escape _

theorem escape_reversible :
    (∀ text, Safe (escape text).toList ∧ unescape (escape text).toList = text.toList) ∧
    (∀ front back, escape (front ++ back) = escape front ++ escape back) ∧
    ∀ text, Safe text.toList ↔ escape (String.ofList (unescape text.toList)) = text :=
  ⟨fun text => ⟨safe_escape text, unescape_escape text⟩, escape_append, safe_iff⟩

end Markup

end Jack
