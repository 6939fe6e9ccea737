/-!
# Ordered entries

Objects and alias tables keep their entries in the order of their keys' first
appearance; giving a key a second value changes the value and not the place.
-/

namespace ImportAlias

abbrev Entries (β : Type) := List (String × β)

namespace Entries

variable {β : Type}

/-- Gives `key` a value, in its old place if it has one and else at the end. -/
def set (key : String) (value : β) : Entries β → Entries β
  | [] => [(key, value)]
  | entry :: rest =>
    if entry.1 = key then (key, value) :: rest else entry :: set key value rest

def get? (entries : Entries β) (key : String) : Option β :=
  (entries.find? (·.1 = key)).map (·.2)

theorem get?_set_self (entries : Entries β) (key : String) (value : β) :
    get? (set key value entries) key = some value := by
  induction entries with
  | nil => simp [set, get?]
  | cons entry rest ih =>
    by_cases h : entry.1 = key
    · simp [set, get?, h]
    · simpa [set, get?, h] using ih

theorem get?_set_of_ne (entries : Entries β) {key other : String} (value : β)
    (h : other ≠ key) : get? (set key value entries) other = get? entries other := by
  induction entries with
  | nil => simp [set, get?, h.symm]
  | cons entry rest ih =>
    by_cases hk : entry.1 = key
    · simp [set, get?, hk, h.symm]
    · by_cases ho : entry.1 = other
      · simp [set, get?, ho, h]
      · simpa [set, get?, hk, ho] using ih

/-- A new key comes last, and an old one moves nothing. -/
theorem keys_set (entries : Entries β) (key : String) (value : β) :
    (set key value entries).map (·.1) =
      if key ∈ entries.map (·.1) then entries.map (·.1) else entries.map (·.1) ++ [key] := by
  induction entries with
  | nil => simp [set]
  | cons entry rest ih =>
    by_cases h : entry.1 = key
    · simp [set, h]
    · by_cases hm : key ∈ rest.map (·.1) <;> simp_all [set, eq_comm]

/-- Entries given one after the other. -/
def ofList (entries : List (String × β)) : Entries β :=
  entries.foldl (fun acc entry => set entry.1 entry.2 acc) []

end Entries

end ImportAlias
