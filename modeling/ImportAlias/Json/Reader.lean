import ImportAlias.Json.Token

/-!
# Reading JSON

The reader is a machine over tokens. Its state says what has to come next and
which arrays and objects are open around it; a token either moves it on or is
the fault that the text is refused for. A key that comes twice keeps its first
place and takes the last value.
-/

namespace ImportAlias.Json

/-- An array or object that has been opened: its content so far, and for an object the key whose
value is being read. -/
inductive Frame where
  | items (found : List Value)
  | member (found : Entries Value) (key : String)

/-- What has to come next. Items are kept last one first. -/
inductive Reading where
  | wantsValue (outer : List Frame)
  | wantsFirstItem (outer : List Frame)
  | afterItem (found : List Value) (outer : List Frame)
  | wantsFirstKey (outer : List Frame)
  | wantsKey (found : Entries Value) (outer : List Frame)
  | wantsColon (found : Entries Value) (key : String) (outer : List Frame)
  | afterMember (found : Entries Value) (outer : List Frame)
  | finished (value : Value)

namespace Reading

/-- A complete value takes its place in the innermost open frame. -/
def close (value : Value) : List Frame → Reading
  | [] => .finished value
  | .items found :: outer => .afterItem (value :: found) outer
  | .member found key :: outer => .afterMember (found.set key value) outer

/-- What the text is refused for when anything else comes. -/
def fault : Reading → Fault
  | .wantsValue _ => .expectedValue
  | .wantsFirstItem _ => .expectedValue
  | .afterItem _ _ => .expectedComma
  | .wantsFirstKey _ => .expectedName
  | .wantsKey _ _ => .expectedName
  | .wantsColon _ _ _ => .expectedColon
  | .afterMember _ _ => .expectedComma
  | .finished _ => .extraData

/-- A token where a value has to come, for the text `rest` from the token on. -/
def valueStep (outer : List Frame) (token : Token) (rest : List Char) : Except Misread Reading :=
  match token with
  | .openObject => .ok (.wantsFirstKey outer)
  | .openArray => .ok (.wantsFirstItem outer)
  | .text content => .ok (close (.string content) outer)
  | .scalar value => .ok (close value outer)
  | .badText misread => .error misread
  | .badNumber misread => .error misread
  | _ => .error ⟨.expectedValue, rest⟩

/-- A token where a key has to come. -/
def keyStep (found : Entries Value) (outer : List Frame) (token : Token) (rest : List Char) :
    Except Misread Reading :=
  match token with
  | .text content => .ok (.wantsColon found content outer)
  | .badText misread => .error misread
  | _ => .error ⟨.expectedName, rest⟩

def step (reading : Reading) (token : Token) (rest : List Char) : Except Misread Reading :=
  match reading, token with
  | .wantsValue outer, token => valueStep outer token rest
  | .wantsFirstItem outer, .closeArray => .ok (close (.array []) outer)
  | .wantsFirstItem outer, token => valueStep (.items [] :: outer) token rest
  | .afterItem found outer, .comma => .ok (.wantsValue (.items found :: outer))
  | .afterItem found outer, .closeArray => .ok (close (.array found.reverse) outer)
  | .wantsFirstKey outer, .closeObject => .ok (close (.object []) outer)
  | .wantsFirstKey outer, token => keyStep [] outer token rest
  | .wantsKey found outer, token => keyStep found outer token rest
  | .wantsColon found key outer, .colon => .ok (.wantsValue (.member found key :: outer))
  | .afterMember found outer, .comma => .ok (.wantsKey found outer)
  | .afterMember found outer, .closeObject => .ok (close (.object found) outer)
  | reading, _ => .error ⟨reading.fault, rest⟩

def run : Reading → List (Token × List Char) → Except Misread Value
  | .finished value, [] => .ok value
  | reading, [] => .error ⟨reading.fault, []⟩
  | reading, (token, rest) :: tokens => do
    run (← reading.step token rest) tokens

end Reading

/-- Where and why a text is refused. Lines and columns count from one, the offset from zero. -/
structure ReadError where
  fault : Fault
  line : Nat
  column : Nat
  offset : Nat
  deriving DecidableEq, Repr

namespace ReadError

/-- Finds the place of a misreading from the text left behind it. -/
def locate (text : List Char) (misread : Misread) : ReadError :=
  let offset := text.length - misread.rest.length
  let before := text.take offset
  ⟨misread.fault, before.count '\n' + 1,
    (before.reverse.takeWhile (· ≠ '\n')).length + 1, offset⟩

def message (e : ReadError) : String :=
  match e.fault with
  | .longInteger _ => e.fault.message
  | fault => s!"{fault.message}: line {e.line} column {e.column} (char {e.offset})"

end ReadError

/-- The value that a text writes. A byte order mark that is still there is refused. -/
def read (text : List Char) : Except ReadError Value :=
  let outcome : Except Misread Value := match text with
    | '\uFEFF' :: _ => .error ⟨.byteOrderMark, text⟩
    | _ => Reading.run (.wantsValue []) (tokens text)
  outcome.mapError (ReadError.locate text)

end ImportAlias.Json
