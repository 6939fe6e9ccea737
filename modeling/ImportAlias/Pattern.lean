import ImportAlias.Text.Search

/-!
# Alias patterns

An alias is either a literal specifier or has one wildcard `*`. A wildcard
pattern is anchored at the start only: the text after the wildcard must occur
somewhere behind the text before it, the capture ends at its last occurrence,
and whatever follows is ignored.
-/

namespace ImportAlias

/-- A compiled alias. -/
inductive Pattern where
  | exact (text : String)
  | wildcard (before after : String)
  deriving DecidableEq, Repr

/-- Why an alias has no pattern. -/
inductive PatternError where
  | severalWildcards (key : String) (count : Nat)
  deriving DecidableEq, Repr

namespace PatternError

def message : PatternError → String
  | severalWildcards key count =>
    s!"Alias '{key}' contains {count} wildcards; only one '*' is supported"

end PatternError

namespace Pattern

/-- Compiles an alias; more than one wildcard is refused. -/
def ofAlias (key : String) : Except PatternError Pattern :=
  let text := key.toList
  match text.count '*' with
  | 0 => .ok (.exact key)
  | 1 =>
    let before := text.takeWhile (· ≠ '*')
    .ok (.wildcard (String.ofList before) (String.ofList (text.drop (before.length + 1))))
  | count => .error (.severalWildcards key count)

/-- The text that the wildcard stands for, empty for a literal alias; `none` when the specifier
does not match. -/
def capture? : Pattern → String → Option String
  | exact text, specifier => if specifier = text then some "" else none
  | wildcard before after, specifier => do
    let rest ← Text.after? before.toList specifier.toList
    let captured ← Text.beforeLast? after.toList rest
    return String.ofList captured

/-- How many texts a match captures. -/
def captures : Pattern → Nat
  | exact _ => 0
  | wildcard _ _ => 1

def isExact : Pattern → Bool
  | exact _ => true
  | wildcard _ _ => false

end Pattern

end ImportAlias
