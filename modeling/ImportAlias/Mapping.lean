import ImportAlias.Pattern

/-!
# Mappings

A mapping is one alias with one target. An alias with several targets gives one
mapping for each, in order and with the same pattern. Targets that hold type
declarations are kept for display and never matched.
-/

namespace ImportAlias

structure Mapping where
  key : String
  pattern : Pattern
  target : String
  deriving DecidableEq, Repr

/-- The marks of a target that holds type declarations. -/
def typingsMarks : List String :=
  ["@types", ".d.ts"]

/-- Whether a target holds type declarations, and so nothing that runs. -/
def isTypingsTarget (target : String) : Bool :=
  typingsMarks.any fun mark => Text.occurs mark.toList target.toList

namespace Mapping

def isTypings (m : Mapping) : Bool :=
  isTypingsTarget m.target

/-- Whether the alias has no wildcard and so stands for one module. -/
def onlyModule (m : Mapping) : Bool :=
  '*' ∉ m.key.toList

/-- The mappings of an alias, one for each of its targets. -/
def ofTargets (key : String) (targets : List String) : Except PatternError (List Mapping) := do
  let pattern ← Pattern.ofAlias key
  return targets.map fun target => ⟨key, pattern, target⟩

/-- The mappings of all aliases. An alias without a pattern is refused whatever its targets. -/
def ofPaths : List (String × List String) → Except PatternError (List Mapping)
  | [] => .ok []
  | (key, targets) :: rest => do
    return (← ofTargets key targets) ++ (← ofPaths rest)

end Mapping

/-- A specifier that a mapping claims, and what its wildcard stands for. -/
structure Match where
  mapping : Mapping
  specifier : String
  captured : String
  deriving DecidableEq, Repr

namespace Mapping

/-- Tests one mapping. Nothing matches an absent or empty specifier. -/
def match? (m : Mapping) : Option String → Option Match
  | none => none
  | some specifier =>
    if specifier = "" then none
    else (m.pattern.capture? specifier).map fun captured => ⟨m, specifier, captured⟩

end Mapping

end ImportAlias
