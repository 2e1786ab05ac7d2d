import Jack.Text.LineTable
import Mathlib.Data.String.Basic

/-!
# Lines and line feeds

The line of an offset is one more than the number of line feeds among the bytes before it. Both ways of
finding it come to this number: counting along the text, and looking the offset up in a table of lines.
-/

namespace Jack

/-! ## Bytes -/

def bytes (text : List Char) : List UInt8 := text.flatMap String.utf8EncodeChar

theorem bytes_toList (text : String) : bytes text.toList = text.toUTF8.data.toList := by
  conv_rhs => rw [← String.ofList_toList (s := text)]
  rw [String.toUTF8_eq_toByteArray, String.toByteArray_ofList, List.utf8Encode, List.data_toByteArray]
  rfl

theorem bytes_cons (c : Char) (text : List Char) :
    bytes (c :: text) = String.utf8EncodeChar c ++ bytes text :=
  List.flatMap_cons

theorem bytes_append (front back : List Char) : bytes (front ++ back) = bytes front ++ bytes back :=
  List.flatMap_append

theorem length_bytes (text : List Char) : (bytes text).length = byteLength text := by
  induction text with
  | nil => rfl
  | cons c rest ih =>
      rw [bytes_cons, List.length_append, String.length_utf8EncodeChar, ih, byteLength]

theorem ne_ofNat_of_lt {n : Nat} (lt : n < 256) (other : n ≠ 10) : (10 : UInt8) ≠ UInt8.ofNat n := by
  intro same
  have value : 10 = n % 256 := by simpa using congrArg UInt8.toNat same
  omega

-- Every byte of a character that takes several is 128 or more.
theorem lineFeed_not_mem {c : Char} (other : c ≠ '\n') : (10 : UInt8) ∉ String.utf8EncodeChar c := by
  have code : c.val.toNat ≠ 10 := by
    intro same
    exact other (Char.ext (UInt32.toNat_inj.mp same))
  unfold String.utf8EncodeChar
  dsimp only
  split_ifs <;> simp only [List.mem_cons, List.not_mem_nil, or_false, not_or]
  · exact ne_ofNat_of_lt (by omega) code
  all_goals
    repeat' apply And.intro
    all_goals exact ne_ofNat_of_lt (by omega) (by omega)

theorem count_bytes (text : List Char) : (bytes text).count 10 = newlineCount text := by
  rw [newlineCount]
  induction text with
  | nil => rfl
  | cons c rest ih =>
      rw [bytes_cons, List.count_append, ih]
      by_cases feed : c = '\n'
      · subst feed
        rw [List.count_cons_self, Nat.add_comm]
        rfl
      · rw [List.count_eq_zero.mpr (lineFeed_not_mem feed), List.count_cons_of_ne feed, Nat.zero_add]

/-- The number of line feeds among the first bytes of a text. -/
def lineFeeds (text : String) (offset : Nat) : Nat := (text.toUTF8.data.toList.take offset).count 10

theorem lineFeeds_append (before after : List Char) :
    lineFeeds (String.ofList (before ++ after)) (byteLength before) = newlineCount before := by
  have front : (bytes (before ++ after)).take (byteLength before) = bytes before := by
    rw [bytes_append, ← length_bytes, List.take_left]
  rw [lineFeeds, ← bytes_toList, String.toList_ofList, front, count_bytes]

/-! ## Tables of lines -/

namespace LineTable

theorem countP_startsAfter (start offset : Nat) (text : List Char) :
    (startsAfter start text).countP (· ≤ offset) = ((bytes text).take (offset - start)).count 10 := by
  induction text generalizing start with
  | nil => simp [startsAfter, bytes]
  | cons c rest ih =>
      have next : offset - start - c.utf8Size = offset - (start + c.utf8Size) := by omega
      rw [bytes_cons, List.take_append, String.length_utf8EncodeChar, List.count_append, next, ← ih]
      by_cases feed : c = '\n'
      · subst feed
        have single : String.utf8EncodeChar '\n' = [10] := rfl
        have here : ((String.utf8EncodeChar '\n').take (offset - start)).count 10 =
            if start + 1 ≤ offset then 1 else 0 := by
          split_ifs with passed
          · rw [single, List.take_of_length_le (show 1 ≤ offset - start by omega), List.count_singleton_self]
          · rw [show offset - start = 0 by omega, List.take_zero, List.count_nil]
        rw [startsAfter, if_pos rfl, List.countP_cons, here, Nat.add_comm]
        simp only [decide_eq_true_eq]
        rfl
      · have none : 10 ∉ (String.utf8EncodeChar c).take (offset - start) :=
          fun member => lineFeed_not_mem feed (List.mem_of_mem_take member)
        rw [startsAfter, if_neg feed, List.count_eq_zero.mpr none, Nat.zero_add]

theorem lt_of_mem_startsAfter {start offset : Nat} {text : List Char}
    (member : offset ∈ startsAfter start text) : start < offset := by
  induction text generalizing start with
  | nil => cases member
  | cons c rest ih =>
      have size := c.utf8Size_pos
      rw [startsAfter] at member
      split_ifs at member with feed
      · rcases List.mem_cons.mp member with rfl | later
        · omega
        · have beyond := ih later
          omega
      · have beyond := ih member
        omega

theorem pairwise_startsAfter (start : Nat) (text : List Char) :
    (startsAfter start text).Pairwise (· < ·) := by
  induction text generalizing start with
  | nil => exact .nil
  | cons c rest ih =>
      rw [startsAfter]
      split_ifs
      · exact .cons (fun _ => lt_of_mem_startsAfter) (ih _)
      · exact ih _

/-- The first `index` lines start at or before the offset, and no others do. -/
structure Divided (table : LineTable) (offset index : Nat) : Prop where
  bound : index ≤ table.starts.size
  before : ∀ i < index, table.starts.getD i 0 ≤ offset
  after : ∀ i, index ≤ i → i < table.starts.size → offset < table.starts.getD i 0

theorem getD_eq {table : LineTable} {i : Nat} (bound : i < table.starts.toList.length) :
    table.starts.getD i 0 = table.starts.toList[i] := by
  have bound' : i < table.starts.size := bound
  simp [Array.getD, bound']

theorem getD_lt_getD {table : LineTable} (sorted : table.starts.toList.Pairwise (· < ·)) {i j : Nat}
    (lt : i < j) (bound : j < table.starts.size) : table.starts.getD i 0 < table.starts.getD j 0 := by
  rw [getD_eq bound, getD_eq (Nat.lt_trans lt bound)]
  exact List.pairwise_iff_getElem.mp sorted i j (Nat.lt_trans lt bound) bound lt

theorem getD_le_getD {table : LineTable} (sorted : table.starts.toList.Pairwise (· < ·)) {i j : Nat}
    (le : i ≤ j) (bound : j < table.starts.size) : table.starts.getD i 0 ≤ table.starts.getD j 0 := by
  rcases Nat.lt_or_eq_of_le le with lt | rfl
  · exact (getD_lt_getD sorted lt bound).le
  · exact le_rfl

theorem divided_of_exact {table : LineTable} (sorted : table.starts.toList.Pairwise (· < ·)) {exact : Nat}
    (bound : exact < table.starts.size) : table.Divided (table.starts.getD exact 0) (exact + 1) where
  bound := bound
  before := fun _ lt => getD_le_getD sorted (by omega) bound
  after := fun _ le lt => getD_lt_getD sorted (by omega) lt

-- Below `low` every start comes before the offset, and from `high` on every start lies beyond it.
theorem divided_search {table : LineTable} (sorted : table.starts.toList.Pairwise (· < ·))
    {offset low high : Nat} (ordered : low ≤ high) (bound : high ≤ table.starts.size)
    (before : ∀ i < low, table.starts.getD i 0 ≤ offset)
    (after : ∀ i, high ≤ i → i < table.starts.size → offset < table.starts.getD i 0) :
    match table.search offset low high with
    | .ok exact => table.Divided offset (exact + 1)
    | .error insertion => table.Divided offset insertion := by
  fun_induction table.search offset low high with
  | case1 low high wide middle start found =>
      have here := @divided_of_exact table sorted middle (by omega)
      rw [← found]
      exact here
  | case2 low high wide middle start other here ih =>
      apply ih (by omega) bound _ after
      intro i lt
      exact (getD_le_getD sorted (by omega) (by omega)).trans here.le
  | case3 low high wide middle start other beyond ih =>
      apply ih (by omega) (by omega) before
      intro i le lt
      have later := getD_le_getD sorted le lt
      omega
  | case4 low high narrow =>
      obtain rfl : low = high := by omega
      exact ⟨bound, before, after⟩

theorem countP_of_divided {table : LineTable} {offset index : Nat} (divided : table.Divided offset index) :
    table.starts.toList.countP (· ≤ offset) = index := by
  obtain ⟨bound, before, after⟩ := divided
  have front : (table.starts.toList.take index).countP (· ≤ offset) = index := by
    rw [List.countP_eq_length.mpr, List.length_take_of_le bound]
    intro start member
    obtain ⟨i, lt, rfl⟩ := List.mem_take_iff_getElem.mp member
    rw [← getD_eq (by omega)]
    simpa using before i (by omega)
  have back : (table.starts.toList.drop index).countP (· ≤ offset) = 0 := by
    rw [List.countP_eq_zero]
    intro start member
    obtain ⟨i, lt, rfl⟩ := List.mem_drop_iff_getElem.mp member
    rw [Nat.add_comm] at lt
    rw [← getD_eq lt]
    simpa using after (index + i) (Nat.le_add_right index i) lt
  rw [← List.take_append_drop index table.starts.toList, List.countP_append, front, back, Nat.add_zero]

theorem pairwise_starts (text : String) : (ofText text).starts.toList.Pairwise (· < ·) :=
  .cons (fun _ => lt_of_mem_startsAfter) (pairwise_startsAfter 0 text.toList)

-- The first line starts at zero, so there is always a line to step back to from an insertion point.
theorem divided_indexOf (text : String) (offset : Nat) :
    (ofText text).Divided offset ((ofText text).indexOf offset + 1) := by
  have divided := @divided_search (ofText text) (pairwise_starts text) offset 0 _ (Nat.zero_le _) le_rfl
    (by simp) (by omega)
  rw [indexOf]
  cases found : (ofText text).search offset 0 (ofText text).starts.size with
  | ok exact =>
      rw [found] at divided
      exact divided
  | error insertion =>
      rw [found] at divided
      have first : insertion ≠ 0 := by
        rintro rfl
        have beyond := divided.after 0 le_rfl (by simp [ofText])
        exact Nat.not_lt_zero offset beyond
      simp only
      rw [Nat.sub_add_cancel (Nat.pos_of_ne_zero first)]
      exact divided

theorem indexOf_ofText (text : String) (offset : Nat) :
    (ofText text).indexOf offset + 1 = 1 + lineFeeds text offset := by
  rw [← countP_of_divided (divided_indexOf text offset), ofText, List.countP_cons, countP_startsAfter,
    Nat.add_comm, lineFeeds, bytes_toList]
  simp

theorem length_startsAfter (start : Nat) (text : List Char) :
    (startsAfter start text).length = newlineCount text := by
  rw [newlineCount]
  induction text generalizing start with
  | nil => rfl
  | cons c rest ih =>
      rw [startsAfter]
      split_ifs with feed
      · rw [List.length_cons, ih, feed, List.count_cons_self]
      · rw [ih, List.count_cons_of_ne feed]

theorem lineCount_ofText (source : String) : (ofText source).lineCount = 1 + newlineCount source.toList := by
  rw [lineCount, ofText, List.size_toArray, List.length_cons, length_startsAfter, Nat.add_comm]

theorem indexOf_lt_lineCount (text : String) (offset : Nat) :
    (ofText text).indexOf offset < (ofText text).lineCount :=
  (divided_indexOf text offset).bound

variable {source : String} (few : newlineCount source.toList < UInt32.size - 1)

include few

theorem lineCount_lt_size : (ofText source).lineCount < UInt32.size := by
  rw [lineCount_ofText]
  omega

/-- The line numbers of a text fit into 32 bits if it has few enough lines. -/
theorem lineOf_eq_indexOf (offset : Nat) :
    (ofText source).lineOf offset = (ofText source).indexOf offset + 1 := by
  have bound := indexOf_lt_lineCount source offset
  have fits := lineCount_lt_size few
  have exact : (UInt32.ofNat ((ofText source).indexOf offset)).toNat = (ofText source).indexOf offset :=
    UInt32.toNat_ofNat_of_lt (by omega)
  rw [lineOf, UInt32.toNat_add, exact, UInt32.toNat_one]
  exact Nat.mod_eq_of_lt (Nat.lt_of_le_of_lt bound fits)

theorem lineOf_ofText (offset : Nat) : (ofText source).lineOf offset = 1 + lineFeeds source offset := by
  rw [lineOf_eq_indexOf few, indexOf_ofText]

end LineTable

end Jack
