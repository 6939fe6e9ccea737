import ImportAlias.Json.Token
import ImportAlias.Text.Points

/-!
# TOML texts and keys

A text is written in one of four ways: with or without escapes, on one line or
on several. Control characters are refused in all of them except the tab, and
in texts of several lines the line feed. A reader takes the rest of the
document and gives back what it read with what is left.
-/

namespace ImportAlias.Toml

/-- Why a document is refused. The grammar's own reasons are not told apart. -/
inductive Fault where
  | malformed
  | longInteger (digits : Nat)
  deriving DecidableEq, Repr

/-- A reader of the front of a document. -/
abbrev Reads (α : Type) := Except Fault (α × List Char)

def isSpace (c : Char) : Bool :=
  c = ' ' || c = '\t'

def isSpaceOrNewline (c : Char) : Bool :=
  isSpace c || c = '\n'

/-- Control characters that no text and no comment may hold. -/
def isForbidden (c : Char) : Bool :=
  (c.toNat < 0x20 && c ≠ '\t') || c.toNat = 0x7F

def skipSpace (text : List Char) : List Char :=
  text.dropWhile isSpace

/-- Steps over a comment up to the end of its line. -/
def skipComment (text : List Char) : Except Fault (List Char) :=
  match text with
  | '#' :: rest =>
    if (rest.takeWhile (· ≠ '\n')).any isForbidden then .error .malformed
    else .ok (rest.dropWhile (· ≠ '\n'))
  | _ => .ok text

/-- Puts a character in front of a text that is being read. -/
def withChar (c : Char) (found : Reads (List Char)) : Reads (List Char) :=
  found.map fun (chars, rest) => (c :: chars, rest)

/-- A character given by its number, which may not be half of a surrogate pair. -/
def scalarChar? (digits : List Char) : Option Char := do
  let code ← Json.hexNumber? digits
  if code < 0xD800 ∨ (0xE000 ≤ code ∧ code < 0x110000) then some (Char.ofNat code) else none

/-- The character that stands behind a backslash, and the text behind it. -/
def escape? : List Char → Option (Char × List Char)
  | 'b' :: rest => some ('\x08', rest)
  | 't' :: rest => some ('\t', rest)
  | 'n' :: rest => some ('\n', rest)
  | 'f' :: rest => some ('\x0c', rest)
  | 'r' :: rest => some ('\r', rest)
  | '"' :: rest => some ('"', rest)
  | '\\' :: rest => some ('\\', rest)
  | 'u' :: rest =>
    if rest.length < 4 then none else (scalarChar? (rest.take 4)).map fun c => (c, rest.drop 4)
  | 'U' :: rest =>
    if rest.length < 8 then none else (scalarChar? (rest.take 8)).map fun c => (c, rest.drop 8)
  | _ => none

/-- Where the text goes on behind a backslash that ends its line: at the next character that is
no white space. -/
def foldedLine? (text : List Char) : Option (List Char) :=
  match skipSpace text with
  | '\n' :: rest => some (rest.dropWhile isSpaceOrNewline)
  | _ => none

theorem length_of_escape? {text rest : List Char} {c : Char}
    (h : escape? text = some (c, rest)) : rest.length ≤ text.length := by
  unfold escape? at h
  split at h
  case h_8 | h_9 =>
    split at h
    · simp at h
    · obtain ⟨_, _, he⟩ := Option.map_eq_some_iff.mp h
      simp only [Prod.mk.injEq] at he
      simp [← he.2]
      omega
  case h_10 => simp at h
  all_goals
    simp only [Option.some.injEq, Prod.mk.injEq] at h
    simp [← h.2]

theorem length_of_foldedLine? {text rest : List Char} (h : foldedLine? text = some rest) :
    rest.length ≤ text.length := by
  have hs := Text.length_dropWhile_le isSpace text
  unfold foldedLine? skipSpace at h
  split at h
  · rename_i tail ht
    have := Text.length_dropWhile_le isSpaceOrNewline tail
    simp only [Option.some.injEq] at h
    simp only [ht, List.length_cons] at hs
    rw [← h]
    omega
  · simp at h

/-- A text with escapes up to the quotes that close it: three of them for one of several lines,
inside which fewer stand for themselves. -/
def basicText (multiline : Bool) : List Char → Reads (List Char)
  | [] => .error .malformed
  | '"' :: rest =>
    if multiline then
      match Text.after? ['"', '"'] rest with
      | some tail => .ok ([], tail)
      | none => withChar '"' (basicText multiline rest)
    else .ok ([], rest)
  | '\\' :: rest =>
    match _h : if multiline then foldedLine? rest else none with
    | some tail => basicText multiline tail
    | none =>
      match _h : escape? rest with
      | some (c, tail) => withChar c (basicText multiline tail)
      | none => .error .malformed
  | c :: rest =>
    if isForbidden c && !(multiline && c = '\n') then .error .malformed
    else withChar c (basicText multiline rest)
termination_by text => text.length
decreasing_by
  · simp
  · split at _h
    · have := length_of_foldedLine? _h; simp; omega
    · simp at _h
  · have := length_of_escape? _h; simp; omega
  · simp

/-- A text without escapes up to the apostrophes that close it. -/
def literalText (multiline : Bool) : List Char → Reads (List Char)
  | [] => .error .malformed
  | '\'' :: rest =>
    if multiline then
      match Text.after? ['\'', '\''] rest with
      | some tail => .ok ([], tail)
      | none => withChar '\'' (literalText multiline rest)
    else .ok ([], rest)
  | c :: rest =>
    if isForbidden c && !(multiline && c = '\n') then .error .malformed
    else withChar c (literalText multiline rest)

/-- Up to two quotes may stand in front of the three that close a text. -/
def closingQuotes (quote : Char) (found : List Char × List Char) : String × List Char :=
  match found with
  | (chars, rest) =>
    let extra := (rest.take 2).takeWhile (· = quote)
    (Text.ofChars (chars ++ extra), rest.drop extra.length)

/-- A line feed that directly follows the opening quotes is no part of the text. -/
def dropFirstNewline : List Char → List Char
  | '\n' :: rest => rest
  | text => text

/-- A text in one of the four ways of writing it; `none` where no quote opens one. -/
def text? : List Char → Option (Reads String)
  | '"' :: '"' :: '"' :: rest =>
    some ((basicText true (dropFirstNewline rest)).map (closingQuotes '"'))
  | '"' :: rest => some ((basicText false rest).map fun (chars, tail) => (Text.ofChars chars, tail))
  | '\'' :: '\'' :: '\'' :: rest =>
    some ((literalText true (dropFirstNewline rest)).map (closingQuotes '\''))
  | '\'' :: rest =>
    some ((literalText false rest).map fun (chars, tail) => (Text.ofChars chars, tail))
  | _ => none

/-- The names of a dotted key, outermost first. -/
abbrev Key := List String

def isBareKeyChar (c : Char) : Bool :=
  c.isAlphanum || c = '-' || c = '_'

/-- One name of a key: bare, or a text of one line. -/
def keyPart (text : List Char) : Reads String :=
  match text with
  | '"' :: rest => (basicText false rest).map fun (chars, tail) => (Text.ofChars chars, tail)
  | '\'' :: rest => (literalText false rest).map fun (chars, tail) => (Text.ofChars chars, tail)
  | _ =>
    let name := text.takeWhile isBareKeyChar
    if name.isEmpty then .error .malformed
    else .ok (String.ofList name, text.dropWhile isBareKeyChar)

/-- A dotted key with the space behind it. The count bounds the dots still to come. -/
def keyFrom : Nat → List Char → Except Fault (Key × List Char)
  | 0, _ => .error .malformed
  | count + 1, text => do
    let (name, rest) ← keyPart text
    match skipSpace rest with
    | '.' :: rest => do
      let (names, rest) ← keyFrom count (skipSpace rest)
      return (name :: names, rest)
    | rest => return ([name], rest)

def key (text : List Char) : Reads Key :=
  keyFrom (text.length + 1) text

end ImportAlias.Toml
