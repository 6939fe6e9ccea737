import ImportAlias.Toml.Namespaces
import ImportAlias.Toml.Scalar

/-!
# Reading TOML

Arrays and inline tables hold values, and a document is a list of statements:
entries, table headers and headers of lists of tables. The recursion is bounded
by counts taken from the length of the text.
-/

namespace ImportAlias.Toml

/-- Steps over white space, line ends and comments. The count bounds the comments. -/
def skipGap : Nat → List Char → Except Fault (List Char)
  | 0, text => .ok text
  | count + 1, text =>
    match text.dropWhile isSpaceOrNewline with
    | '#' :: rest => do skipGap count (← skipComment ('#' :: rest))
    | rest => .ok rest

def gap (text : List Char) : Except Fault (List Char) :=
  skipGap (text.length + 1) text

mutual

/-- A value. -/
def value : Nat → List Char → Except Fault (Value × List Char)
  | 0, _ => .error .malformed
  | depth + 1, text =>
    match text with
    | '[' :: rest => do
      match ← gap rest with
      | ']' :: rest => return (.array [], rest)
      | rest => items depth [] rest
    | '{' :: rest =>
      match skipSpace rest with
      | '}' :: rest => .ok (.object [], rest)
      | rest => members depth [] [] rest
    | text => scalar text

/-- The items of an array from one item on; `found` holds those before it, last one first. -/
def items : Nat → List Value → List Char → Except Fault (Value × List Char)
  | 0, _, _ => .error .malformed
  | depth + 1, found, text => do
    let (item, rest) ← value depth text
    match ← gap rest with
    | ']' :: rest => return (.array (item :: found).reverse, rest)
    | ',' :: rest =>
      match ← gap rest with
      | ']' :: rest => return (.array (item :: found).reverse, rest)
      | rest => items depth (item :: found) rest
    | _ => .error .malformed

/-- The entries of an inline table from one entry on, with the keys closed so far. -/
def members : Nat → List Key → Entries Value → List Char → Except Fault (Value × List Char)
  | 0, _, _, _ => .error .malformed
  | depth + 1, closed, found, text => do
    let (name, rest) ← key text
    match rest with
    | '=' :: rest => do
      let (entry, rest) ← value depth (skipSpace rest)
      if closed.any (·.isPrefixOf name) then .error .malformed
      else
        let (containers, last) := splitLast name
        let found ← changeTable false (addEntry last entry) containers found
        match skipSpace rest with
        | '}' :: rest => return (.object found, rest)
        | ',' :: rest =>
          members depth (if isContainer entry then name :: closed else closed) found
            (skipSpace rest)
        | _ => .error .malformed
    | _ => .error .malformed

end

/-- A document as far as it has been read: its content, what has been declared, and the table that
entries go to. -/
structure Document where
  content : Entries Value
  declared : Declared
  header : Key

namespace Document

def empty : Document := ⟨[], .empty, []⟩

/-- A table header. -/
def openTable (document : Document) (name : Key) : Except Fault Document :=
  if document.declared.isTable name || document.declared.isClosed name then .error .malformed
  else do
    let content ← changeTable true .ok name document.content
    return ⟨content, document.declared.addTable name, name⟩

/-- The header of one more table of a list; what was declared in the last one no longer counts. -/
def openListed (document : Document) (name : Key) : Except Fault Document :=
  if document.declared.isClosed name then .error .malformed
  else do
    let (containers, last) := splitLast name
    let content ← changeTable true (addToList last) containers document.content
    return ⟨content, (document.declared.forget name).addTable name, name⟩

/-- The keys that a dotted key opens on its way, below the header. -/
def opened (header name : Key) : List Key :=
  (List.range (name.length - 1)).map fun n => header ++ name.take (n + 1)

/-- An entry of the current table. -/
def enter (document : Document) (name : Key) (entry : Value) : Except Fault Document :=
  let { content, declared, header } := document
  let (containers, last) := splitLast name
  let passed := opened header name
  if passed.any declared.isTable || declared.isClosed (header ++ containers) then
    .error .malformed
  else do
    let content ← changeTable true (addEntry last entry) (header ++ containers) content
    let declared := { declared with pending := passed ++ declared.pending }
    let declared := if isContainer entry then declared.close (header ++ name) else declared
    return ⟨content, declared, header⟩

end Document

/-- A key and its value. -/
def entry (text : List Char) : Except Fault ((Key × Value) × List Char) := do
  match ← key text with
  | (name, '=' :: rest) => do
    let (found, rest) ← value (2 * text.length + 2) (skipSpace rest)
    return ((name, found), rest)
  | _ => .error .malformed

/-- One statement, from its first character on. -/
def statement (document : Document) (text : List Char) :
    Except Fault (Document × List Char) :=
  match text with
  | '[' :: '[' :: rest => do
    let document := { document with declared := document.declared.settle }
    match ← key (skipSpace rest) with
    | (name, ']' :: ']' :: rest) => return (← document.openListed name, rest)
    | _ => .error .malformed
  | '[' :: rest => do
    let document := { document with declared := document.declared.settle }
    match ← key (skipSpace rest) with
    | (name, ']' :: rest) => return (← document.openTable name, rest)
    | _ => .error .malformed
  | '#' :: _ => .ok (document, text)
  | text => do
    let ((name, found), rest) ← entry text
    return (← document.enter name found, rest)

/-- The statements of a document. The count bounds the lines still to come. -/
def statements : Nat → Document → List Char → Except Fault (Entries Value)
  | 0, _, _ => .error .malformed
  | count + 1, document, text =>
    match skipSpace text with
    | [] => .ok document.content
    | '\n' :: rest => statements count document rest
    | text => do
      let (document, rest) ← statement document text
      match ← skipComment (skipSpace rest) with
      | [] => return document.content
      | '\n' :: rest => statements count document rest
      | _ => .error .malformed

/-- The table that a document writes. -/
def read (text : List Char) : Except Fault (Entries Value) :=
  statements (text.length + 1) .empty text

end ImportAlias.Toml
