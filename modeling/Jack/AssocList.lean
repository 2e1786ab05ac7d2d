/-!
# Association lists

Lists of keys and values, in the order in which the keys were first given.
-/

namespace Jack.AssocList

variable {κ ν : Type} [BEq κ]

/-- Sets the value of a key: in place if the key has a value, and at the end otherwise. -/
def put (entries : List (κ × ν)) (key : κ) (value : ν) : List (κ × ν) :=
  match entries with
  | [] => [(key, value)]
  | (name, old) :: rest =>
    if key == name then (name, value) :: rest else (name, old) :: put rest key value

/-- Setting the value of a key changes what is found under that key, and nothing else. -/
theorem lookup_put [LawfulBEq κ] (entries : List (κ × ν)) (key other : κ) (value : ν) :
    (put entries key value).lookup other = if other == key then some value else entries.lookup other := by
  induction entries with
  | nil => by_cases same : other == key <;> simp [put, List.lookup_cons, same]
  | cons entry rest ih =>
    obtain ⟨name, old⟩ := entry
    by_cases here : key == name
    · obtain rfl := eq_of_beq here
      by_cases same : other == key <;> simp [put, List.lookup_cons, same]
    · by_cases there : other == name
      · obtain rfl := eq_of_beq there
        have apart : (other == key) = false := by
          simpa using fun same => here (by simp [same])
        simp [put, here, apart]
      · simp [put, List.lookup_cons, here, there, ih]

end Jack.AssocList
