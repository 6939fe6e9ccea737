/-!
# Reading bytes as text

Bytes are read as UTF-8 without tolerance: an overlong form, a surrogate and a
code point above the last plane are refused where their second byte shows them.
A fault names the first byte that belongs to no character and how many bytes
are given up with it.
-/

namespace ImportAlias.Text

/-- What is wrong with a sequence of bytes. -/
inductive ByteFault where
  | start
  | continuation
  | cutShort
  deriving DecidableEq, Repr

namespace ByteFault

def message : ByteFault → String
  | start => "invalid start byte"
  | continuation => "invalid continuation byte"
  | cutShort => "unexpected end of data"

end ByteFault

/-- Where bytes stop being UTF-8: the offset, the bytes given up there, and the reason. -/
structure DecodeError where
  offset : Nat
  bytes : List UInt8
  fault : ByteFault
  deriving DecidableEq, Repr

namespace DecodeError

def hexByte (b : UInt8) : String :=
  String.ofList [Nat.digitChar (b.toNat / 16), Nat.digitChar (b.toNat % 16)]

def message (e : DecodeError) : String :=
  match e.bytes with
  | [b] => s!"'utf-8' codec can't decode byte 0x{hexByte b} in position {e.offset}: " ++
      e.fault.message
  | bytes =>
    s!"'utf-8' codec can't decode bytes in position {e.offset}-{e.offset + bytes.length - 1}: " ++
      e.fault.message

end DecodeError

/-- The bytes allowed behind a first byte of three or four: they rule out overlong forms,
surrogates, and what lies above the last plane. -/
def secondByteRange (first : UInt8) : UInt8 × UInt8 :=
  if first = 0xE0 then (0xA0, 0xBF)
  else if first = 0xED then (0x80, 0x9F)
  else if first = 0xF0 then (0x90, 0xBF)
  else if first = 0xF4 then (0x80, 0x8F)
  else (0x80, 0xBF)

def isContinuation (b : UInt8) : Bool :=
  0x80 ≤ b && b ≤ 0xBF

/-- The number of bytes that a first byte announces, zero for none. -/
def announcedLength (first : UInt8) : Nat :=
  if first ≤ 0x7F then 1
  else if first < 0xC2 then 0
  else if first ≤ 0xDF then 2
  else if first ≤ 0xEF then 3
  else if first ≤ 0xF4 then 4
  else 0

/-- How many of the bytes behind `first` may stay in its character, up to `wanted` of them. -/
def acceptedTail (first : UInt8) (wanted : Nat) : List UInt8 → Nat
  | [] => 0
  | second :: rest =>
    let (low, high) := secondByteRange first
    if low ≤ second && second ≤ high then
      1 + ((rest.take (wanted - 1)).takeWhile isContinuation).length
    else 0

/-- The code point spelled by a first byte of a character of `length` bytes and the bytes behind
it. -/
def codePoint (length : Nat) (first : UInt8) (tail : List UInt8) : Nat :=
  let high := match length with
    | 1 => first.toNat
    | 2 => first.toNat % 0x20
    | 3 => first.toNat % 0x10
    | _ => first.toNat % 0x08
  tail.foldl (fun acc b => acc * 0x40 + b.toNat % 0x40) high

/-- The characters of `bytes`, the first of which stands at `offset`. -/
def decodeFrom (offset : Nat) : List UInt8 → Except DecodeError (List Char)
  | [] => .ok []
  | first :: rest =>
    match announcedLength first with
    | 0 => .error ⟨offset, [first], .start⟩
    | wanted + 1 =>
      let found := if wanted = 0 then 0 else acceptedTail first wanted rest
      if found = wanted then do
        let char := Char.ofNat (codePoint (wanted + 1) first (rest.take wanted))
        return char :: (← decodeFrom (offset + wanted + 1) (rest.drop wanted))
      else
        let fault := if found = rest.length then .cutShort else .continuation
        .error ⟨offset, first :: rest.take found, fault⟩
termination_by bytes => bytes.length
decreasing_by simp only [List.length_drop, List.length_cons]; omega

def decodeUtf8 (bytes : List UInt8) : Except DecodeError (List Char) :=
  decodeFrom 0 bytes

/-- Reads UTF-8 that may open with a byte order mark, which is dropped once. A file that ends
within the mark holds nothing. -/
def decodeMarkedUtf8 (bytes : List UInt8) : Except DecodeError (List Char) :=
  let mark : List UInt8 := [0xEF, 0xBB, 0xBF]
  if bytes.length < mark.length && bytes.isPrefixOf mark then .ok []
  else if mark.isPrefixOf bytes then decodeUtf8 (bytes.drop mark.length)
  else decodeUtf8 bytes

/-- Line ends written as a carriage return, with or without a line feed, become line feeds. -/
def unifyNewlines : List Char → List Char
  | [] => []
  | '\r' :: '\n' :: rest => '\n' :: unifyNewlines rest
  | '\r' :: rest => '\n' :: unifyNewlines rest
  | c :: rest => c :: unifyNewlines rest

end ImportAlias.Text
