import ImportAlias.Action

/-!
# Subjects

What a mapping is asked about is a specifier, but a host or an assistant can
hand over any value. A vacant value asks for nothing. Any other value that is
no text equals no literal alias; a wildcard has to look at how it starts, and
that is a fault.
-/

namespace ImportAlias

namespace Pattern

/-- The text captured from any value. -/
def captureFrom? (pattern : Pattern) : Value → Except Unreported (Option String)
  | .string specifier => .ok (pattern.capture? specifier)
  | other => if pattern.isExact then .ok none else .error (.specifierNotText other)

end Pattern

namespace Mapping

/-- Tests one mapping on any value. -/
def matchFrom? (m : Mapping) (subject : Value) : Except Unreported (Option Match) :=
  match subject with
  | .string specifier => .ok (m.match? (some specifier))
  | other => if other.isVacant then .ok none else (m.pattern.captureFrom? other).map fun _ => none

end Mapping

namespace Table

/-- What the whole table does with any value: the first active mapping that matches it decides, and
so does the first fault. -/
def resolveFrom (table : Table) (subject : Value) : Except Unreported Action := do
  return .ofMatch table.baseDirectory (← table.active.findSomeM? (·.matchFrom? subject))

/-- What a single mapping does with any value. -/
def resolveWithFrom (table : Table) (mapping : Mapping) (subject : Value) :
    Except Unreported Action := do
  return .ofMatch table.baseDirectory (← mapping.matchFrom? subject)

theorem findSomeM?_matchFrom?_string (mappings : List Mapping) (specifier : String) :
    mappings.findSomeM? (m := Except Unreported) (·.matchFrom? (.string specifier)) =
      .ok (mappings.findSome? (·.match? (some specifier))) := by
  induction mappings with
  | nil => rfl
  | cons mapping rest ih =>
    cases h : mapping.match? (some specifier) with
    | none =>
      simpa [List.findSomeM?, Mapping.matchFrom?, h, bind, Except.bind] using ih
    | some found =>
      simp [List.findSomeM?, Mapping.matchFrom?, h, bind, Except.bind, pure, Except.pure]

theorem resolveFrom_string (table : Table) (specifier : String) :
    table.resolveFrom (.string specifier) = .ok (table.resolve (some specifier)) := by
  simp [resolveFrom, findSomeM?_matchFrom?_string, resolve, match?, bind, Except.bind, pure,
    Except.pure]

end Table

end ImportAlias
