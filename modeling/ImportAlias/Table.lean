import ImportAlias.Mapping
import ImportAlias.Settings

/-!
# The mapping table

The mappings of a configuration in declared order. The first active mapping
that matches a specifier decides what becomes of it, and the others are not
asked.
-/

namespace ImportAlias

structure Table where
  mappings : List Mapping
  baseDirectory : Path
  baseUrl : Value

namespace Table

/-- Compiles settings; a relative file path is read from the `current` directory. -/
def ofSettings (current : Path) (settings : Settings) : Except Error Table := do
  let mappings ← (Mapping.ofPaths settings.paths).mapError .pattern
  let base ← (settings.baseDirectory current).mapError .unreported
  return ⟨mappings, base, settings.baseUrl⟩

/-- The mappings that are matched: all but those of typings targets. -/
def active (table : Table) : List Mapping :=
  table.mappings.filter (!·.isTypings)

/-- The first active mapping that matches. -/
def match? (table : Table) (specifier : Option String) : Option Match :=
  table.active.findSome? (·.match? specifier)

end Table

end ImportAlias
