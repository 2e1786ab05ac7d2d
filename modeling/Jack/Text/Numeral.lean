/-!
# Numerals
-/

namespace Jack.Numeral

/-- The number that some digits stand for in a base, the most significant digit first. -/
def ofDigits (base : Nat) (digits : List Nat) : Nat :=
  digits.foldl (fun value digit => base * value + digit) 0

def digit (c : Char) : Nat := c.toNat - '0'.toNat

/-- The number that a run of decimal digits stands for; zeros in front are allowed. -/
def decimal (text : List Char) : Nat := ofDigits 10 (text.map digit)

/-! ## Numbers of a fixed width

Reading a number of some bits is arithmetic of that width, and it fails where a value would not fit. -/

/-- A value that is below the bound, where values of the width end. -/
def fit? (bound value : Nat) : Option Nat := if value < bound then some value else none

def digit? (c : Char) : Option Nat := if c.isDigit then some (digit c) else none

/-- A number with one more digit behind it. The product and the sum both have to fit. -/
def push? (bound value : Nat) (c : Char) : Option Nat := do
  let tens ← fit? bound (value * 10)
  let digit ← digit? c
  fit? bound (tens + digit)

/-- The number that a text stands for if it is made of decimal digits, behind a plus sign if the writer likes. -/
def unsigned? (bound : Nat) (text : List Char) : Option Nat :=
  let digits := match text with
    | '+' :: digits => digits
    | digits => digits
  if digits = [] then none else digits.foldlM (push? bound) 0

section

variable {bound value : Nat} {c : Char} {digits : List Char}

theorem push?_eq (isDigit : c.isDigit = true) : push? bound value c = fit? bound (10 * value + digit c) := by
  have grows : value * 10 ≤ 10 * value + digit c := by omega
  by_cases fits : value * 10 < bound
  · simp [push?, fit?, digit?, isDigit, fits, Nat.mul_comm]
  · have large : ¬ 10 * value + digit c < bound := by omega
    simp [push?, fit?, fits, large]

theorem le_foldl_digits (value : Nat) (digits : List Nat) :
    value ≤ digits.foldl (fun value digit => 10 * value + digit) value := by
  induction digits generalizing value with
  | nil => exact Nat.le_refl value
  | cons d digits ih =>
      have next := ih (10 * value + d)
      rw [List.foldl_cons]
      omega

theorem foldlM_push?_eq (fits : value < bound) (decimal : ∀ c ∈ digits, c.isDigit = true) :
    digits.foldlM (push? bound) value =
      fit? bound ((digits.map digit).foldl (fun value digit => 10 * value + digit) value) := by
  induction digits generalizing value with
  | nil => simp [fit?, fits]
  | cons c digits ih =>
      obtain ⟨isDigit, others⟩ := List.forall_mem_cons.mp decimal
      rw [List.foldlM_cons, push?_eq isDigit, List.map_cons, List.foldl_cons]
      by_cases next : 10 * value + digit c < bound
      · rw [← ih next others]
        simp [fit?, next]
      · -- Once a value is too large, no digit makes the number smaller.
        have grows := le_foldl_digits (10 * value + digit c) (digits.map digit)
        have large : ¬ (digits.map digit).foldl (fun value digit => 10 * value + digit)
            (10 * value + digit c) < bound := by omega
        simp [fit?, next, large]

/-- Reading digits fails exactly where the number that they stand for is too large. -/
theorem unsigned?_digits (positive : 0 < bound) (nonempty : digits ≠ [])
    (decimal : ∀ c ∈ digits, c.isDigit = true) :
    unsigned? bound digits = fit? bound (Numeral.decimal digits) := by
  obtain ⟨c, rest, rfl⟩ := List.exists_cons_of_ne_nil nonempty
  have digit : c ≠ '+' := by
    rintro rfl
    cases decimal '+' List.mem_cons_self
  rw [unsigned?.eq_2 bound _ (by simpa using digit), if_neg nonempty, foldlM_push?_eq positive decimal]
  rfl

end

end Jack.Numeral
