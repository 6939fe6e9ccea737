import ImportAlias.Table

/-!
# Actions

A match becomes a redirect: the target with the captured text in place of its
first wildcard. What then starts with a dot is anchored at the base directory;
bare and absolute specifiers stay as they are.
-/

namespace ImportAlias

namespace Match

/-- The target with the captured text filled in, which a literal alias does not have. -/
def filled (m : Match) : String :=
  if m.mapping.pattern.isExact then m.mapping.target
  else String.ofList (Text.replaceFirst '*' m.captured.toList m.mapping.target.toList)

/-- The specifier to resolve next. The base directory is absolute. -/
def destination (m : Match) (base : Path) : String :=
  match m.filled.toList with
  | '.' :: _ => (base / Path.ofString m.filled).normalize.toString
  | _ => m.filled

/-- What a trace says of a redirect. -/
def description (m : Match) (specifier : String) : String :=
  s!"aliased with mapping '{m.specifier}': '{m.mapping.key}' to '{specifier}'"

end Match

/-- A specifier to resolve in place of the one asked for. -/
structure Redirect where
  specifier : String
  description : String
  mapping : Mapping
  innerRequest : String
  deriving DecidableEq, Repr

/-- What is done with a specifier: nothing, a redirect, or, once a redirect has found nothing, an
end without falling back. -/
inductive Action where
  | passthrough
  | redirect (redirect : Redirect)
  | suppress (specifier description : String)
  deriving DecidableEq, Repr

namespace Match

def toRedirect (m : Match) (base : Path) : Redirect :=
  let specifier := m.destination base
  ⟨specifier, m.description specifier, m.mapping, m.specifier⟩

end Match

namespace Action

def ofMatch (base : Path) : Option Match → Action
  | none => passthrough
  | some m => redirect (m.toRedirect base)

end Action

namespace Table

/-- What the whole table does with a specifier. -/
def resolve (table : Table) (specifier : Option String) : Action :=
  .ofMatch table.baseDirectory (table.match? specifier)

/-- What a single mapping does with a specifier. -/
def resolveWith (table : Table) (mapping : Mapping) (specifier : Option String) : Action :=
  .ofMatch table.baseDirectory (mapping.match? specifier)

end Table

end ImportAlias
