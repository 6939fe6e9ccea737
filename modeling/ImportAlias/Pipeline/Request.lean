import ImportAlias.Path
import ImportAlias.Value

/-!
# Requests

A request travels through the stages of a resolver. What it is about is its
inner specifier: the request itself, read from the relative path when it is
relative, or the relative path alone when nothing is requested.
-/

namespace ImportAlias.Pipeline

structure Request where
  path : String
  request : Option String
  relativePath : Option String
  query : String
  descriptionFileRoot : Option String
  context : List (String × Value)

namespace Request

/-- What is requested, unless that is empty. -/
def wanted? (request : Request) : Option String :=
  request.request.filter (· ≠ "")

/-- Whether a specifier starts from the directory of the request or the one above it. -/
def startsRelative (specifier : String) : Bool :=
  (Text.after? ['.', '/'] specifier.toList).isSome ||
    (Text.after? ['.', '.', '/'] specifier.toList).isSome

/-- The specifier that a request is resolving. -/
def inner (request : Request) : Option String :=
  match request.wanted? with
  | none => request.relativePath
  | some specifier =>
    match request.relativePath.filter (· ≠ "") with
    | some directory =>
      some (if startsRelative specifier then Path.joinRequest directory specifier else specifier)
    | none => some specifier

/-- The inner specifier as what mappings are asked about. -/
def subject (request : Request) : Value :=
  request.inner.elim .null .string

end Request

end ImportAlias.Pipeline
