import Jack.Command.Path
import Mathlib.Data.List.TakeWhile

/-!
# Names and parts of paths

A path that is made of parts has these parts again, and a name with an extension is its stem, a dot and the
extension.
-/

namespace Jack.Path

/-! ## Parts -/

theorem splitAt_eq_splitOn (mark : Char) (text : List Char) : splitAt mark text = text.splitOn mark := by
  induction text with
  | nil => rfl
  | cons c rest ih =>
      rw [splitAt, List.splitOn_cons_eq_if_modifyHead, ih]
      by_cases here : c = mark
      · simp [here]
      · have some_part := List.splitOn_ne_nil mark rest
        cases split : rest.splitOn mark with
        | nil => contradiction
        | cons part parts => simp [here]

theorem not_mem_of_mem_splitAt {mark : Char} {text part : List Char} (member : part ∈ splitAt mark text) :
    mark ∉ part := by
  fun_induction splitAt mark text generalizing part with
  | case1 =>
      obtain rfl := List.mem_singleton.mp member
      exact List.not_mem_nil
  | case2 rest ih =>
      cases List.mem_cons.mp member with
      | inl first => simp [first]
      | inr later => exact ih later
  | case3 c rest differs empty ih =>
      obtain rfl := List.mem_singleton.mp member
      simpa using Ne.symm differs
  | case4 c rest differs first others split ih =>
      rw [split] at ih
      cases List.mem_cons.mp member with
      | inl first =>
          rw [first, List.mem_cons, not_or]
          exact ⟨Ne.symm differs, ih List.mem_cons_self⟩
      | inr later => exact ih (List.mem_cons_of_mem _ later)

theorem parts_ne_nil (path : String) : parts path ≠ [] := by
  rw [parts, splitAt_eq_splitOn]
  simp

theorem slash_not_mem_of_mem_parts {path part : String} (member : part ∈ parts path) : '/' ∉ part.toList := by
  obtain ⟨text, stretch, rfl⟩ := List.mem_map.mp member
  rw [String.toList_ofList]
  exact not_mem_of_mem_splitAt stretch

theorem parts_ofParts {pieces : List String} (some_piece : pieces ≠ [])
    (plain : ∀ piece ∈ pieces, '/' ∉ piece.toList) : parts (ofParts pieces) = pieces := by
  have split : (List.intercalate ['/'] (pieces.map String.toList)).splitOn '/' = pieces.map String.toList := by
    apply List.splitOn_intercalate
    · intro text member
      obtain ⟨piece, given, rfl⟩ := List.mem_map.mp member
      exact plain piece given
    · simpa using some_piece
  have separator : "/".toList = ['/'] := rfl
  rw [parts, ofParts, String.toList_intercalate, separator, splitAt_eq_splitOn, split, List.map_map]
  simp [Function.comp_def]

theorem parts_ofParts_append (path : String) {front : List String} (plain : ∀ piece ∈ front, '/' ∉ piece.toList) :
    parts (ofParts (front ++ parts path)) = front ++ parts path := by
  apply parts_ofParts (by simp [parts_ne_nil])
  intro piece member
  rcases List.mem_append.mp member with given | own
  · exact plain piece given
  · exact slash_not_mem_of_mem_parts own

theorem directoryParts_append (front : List String) :
    ∃ silent, front = directoryParts front ++ silent ∧ ∀ part ∈ silent, isSilent part = true := by
  cases front with
  | nil => exact ⟨[], rfl, by simp⟩
  | cons first rest =>
      refine ⟨(rest.reverse.takeWhile isSilent).reverse, ?_, ?_⟩
      · rw [directoryParts, List.cons_append, ← List.reverse_append, List.takeWhile_append_dropWhile,
          List.reverse_reverse]
      · intro part member
        exact List.mem_takeWhile_imp (List.mem_reverse.mp member)

/-- The name that a path ends with, when the parts that lead nowhere are left out. -/
def lastName (path : String) : String := ((parts path).filter (!isSilent ·)).getLastD ""

theorem lastName_of_parts {path name : String} {front : List String} (split : parts path = front ++ [name])
    (heard : isSilent name = false) : lastName path = name := by
  simp [lastName, split, heard]

/-! ## Extensions -/

theorem splitExtension_of_dot {name : String} {before after : List Char}
    (split : name.toList = before ++ '.' :: after) (last : '.' ∉ after) :
    splitExtension name =
      if before = [] then (name, none) else (String.ofList before, some (String.ofList after)) := by
  have run : name.toList.reverse.takeWhile (· != '.') = after.reverse := by
    rw [split, List.reverse_append, List.reverse_cons, List.append_assoc, List.singleton_append,
      List.takeWhile_append_of_pos]
    · simp
    · intro c member
      have differs : c ≠ '.' := fun same => last (same ▸ List.mem_reverse.mp member)
      simpa using differs
  have front : name.toList.take (name.toList.length - after.length) = before ++ ['.'] := by
    have length : name.toList.length - after.length = (before ++ ['.']).length := by
      rw [split]
      simp only [List.length_append, List.length_cons, List.length_nil]
      omega
    rw [length, split, List.append_cons before '.' after, List.take_left]
  rw [splitExtension, run, List.reverse_reverse, front]
  cases before with
  | nil => simp
  | cons c rest =>
      have two : ¬ (c :: rest ++ ['.']).length ≤ 1 := by simp
      rw [if_neg two, if_neg (List.cons_ne_nil c rest), List.dropLast_concat]

theorem splitExtension_of_not_mem {name : String} (plain : '.' ∉ name.toList) :
    splitExtension name = (name, none) := by
  have run : name.toList.reverse.takeWhile (· != '.') = name.toList.reverse := by
    rw [List.takeWhile_eq_self_iff]
    intro c member
    have differs : c ≠ '.' := fun same => plain (same ▸ List.mem_reverse.mp member)
    simpa using differs
  rw [splitExtension, run, List.reverse_reverse]
  simp

theorem exists_last_dot {name : List Char} (dot : '.' ∈ name) :
    ∃ before after, name = before ++ '.' :: after ∧ '.' ∉ after := by
  obtain ⟨after, before, split, first⟩ := List.eq_append_cons_of_mem (List.mem_reverse.mpr dot)
  refine ⟨before.reverse, after.reverse, ?_, by simpa using first⟩
  rw [← List.reverse_reverse name, split]
  simp

theorem exists_stem_append (name : String) : ∃ rest, name.toList = (stem name).toList ++ rest := by
  by_cases dot : '.' ∈ name.toList
  · obtain ⟨before, after, split, last⟩ := exists_last_dot dot
    rw [stem, splitExtension_of_dot split last]
    split_ifs
    · exact ⟨[], by simp⟩
    · exact ⟨'.' :: after, by simpa using split⟩
  · exact ⟨[], by simp [stem, splitExtension_of_not_mem dot]⟩

theorem extension?_append {base extension : String} (some_base : base ≠ "")
    (plain : '.' ∉ extension.toList) : extension? (base ++ "." ++ extension) = some extension := by
  have split : (base ++ "." ++ extension).toList = base.toList ++ '.' :: extension.toList := by simp
  rw [extension?, splitExtension_of_dot split plain, if_neg (by simpa using some_base)]
  simp

theorem name_of_extension? {name extension : String} (given : extension? name = some extension) :
    stem name ≠ "" ∧ name = stem name ++ "." ++ extension := by
  by_cases dot : '.' ∈ name.toList
  · obtain ⟨before, after, split, last⟩ := exists_last_dot dot
    rw [extension?, splitExtension_of_dot split last] at given
    rw [stem, splitExtension_of_dot split last]
    by_cases none_before : before = []
    · simp [none_before] at given
    · rw [if_neg none_before] at given ⊢
      have same : String.ofList after = extension := Option.some.inj given
      refine ⟨by simpa using none_before, ?_⟩
      rw [← String.toList_inj, split, ← same]
      simp
  · rw [extension?, splitExtension_of_not_mem dot] at given
    contradiction

theorem stem_ne_empty {name : String} (some_name : name ≠ "") : stem name ≠ "" := by
  by_cases dot : '.' ∈ name.toList
  · obtain ⟨before, after, split, last⟩ := exists_last_dot dot
    rw [stem, splitExtension_of_dot split last]
    split_ifs with front
    · exact some_name
    · simpa using front
  · rwa [stem, splitExtension_of_not_mem dot]

theorem stem_append {base extension : String} (some_base : base ≠ "") (plain : '.' ∉ extension.toList) :
    stem (base ++ "." ++ extension) = base := by
  have name := (name_of_extension? (extension?_append some_base plain)).2
  exact ((String.append_left_inj ".").mp ((String.append_left_inj extension).mp name)).symm

end Jack.Path
