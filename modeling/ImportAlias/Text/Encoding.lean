import ImportAlias.Text.Quoted

/-!
# Writing text as bytes

UTF-8 has no form for half of a surrogate pair. Output refuses every half. The
path of a file takes the halves that stand for single bytes, for so a name that
is not UTF-8 is read, and it refuses a null byte, which would end it. A fault
names the first half that is refused and the stretch of halves that it opens.
-/

namespace ImportAlias.Text

/-- Where a text has no form in bytes: the first half that is refused, its place, and the place of
the last half of the stretch that it opens. -/
structure EncodeError where
  half : Nat
  first : Nat
  last : Nat
  deriving DecidableEq, Repr

namespace EncodeError

def message (e : EncodeError) : String :=
  let found :=
    if e.first = e.last then
      "character '\\u" ++ String.ofList (hexDigits 4 e.half) ++ s!"' in position {e.first}"
    else s!"characters in position {e.first}-{e.last}"
  "'utf-8' codec can't encode " ++ found ++ ": surrogates not allowed"

end EncodeError

/-- Why a text is no path. -/
inductive PathFault where
  | nullByte
  | unencodable (cause : EncodeError)
  deriving DecidableEq, Repr

namespace PathFault

def message : PathFault → String
  | nullByte => "embedded null byte"
  | unencodable cause => cause.message

end PathFault

/-- Whether half of a pair stands for a single byte in a path. -/
def isByteHalf (half : Nat) : Bool :=
  0xDC80 ≤ half && half < 0xDD00

/-- What is wrong with code points that are written as UTF-8, the first of which stands at
`place`. The halves of `allowed` have a form of their own. -/
def encodeErrorFrom? (allowed : Nat → Bool) (place : Nat) : List Nat → Option EncodeError
  | [] => none
  | point :: rest =>
    if isHalf point && !allowed point then
      some ⟨point, place, place + (rest.takeWhile isHalf).length⟩
    else encodeErrorFrom? allowed (place + 1) rest

/-- What is wrong with a text that is printed. -/
def printError? (text : String) : Option EncodeError :=
  encodeErrorFrom? (fun _ => false) 0 (points text.toList)

def holdsHalf (text : String) : Bool :=
  (points text.toList).any isHalf

/-- Whether a text is fit for a path. -/
def isRepresentable (text : String) : Bool :=
  (points text.toList).all fun point => point ≠ 0 && (!isHalf point || isByteHalf point)

/-- What is wrong with a text in a path, `place` code points behind its start. Halves are refused
before a null byte is. -/
def pathFaultFrom? (place : Nat) (text : String) : Option PathFault :=
  match encodeErrorFrom? isByteHalf place (points text.toList) with
  | some cause => some (.unencodable cause)
  | none => if (points text.toList).contains 0 then some .nullByte else none

theorem encodeErrorFrom?_eq_none_iff (allowed : Nat → Bool) (place : Nat) (text : List Nat) :
    encodeErrorFrom? allowed place text = none ↔
      ∀ point ∈ text, isHalf point = true → allowed point = true := by
  induction text generalizing place with
  | nil => simp [encodeErrorFrom?]
  | cons point rest ih =>
    rw [encodeErrorFrom?, List.forall_mem_cons, ← ih (place + 1)]
    cases isHalf point <;> cases allowed point <;> simp

theorem printError?_eq_none_iff {text : String} :
    printError? text = none ↔ holdsHalf text = false := by
  rw [printError?, encodeErrorFrom?_eq_none_iff, holdsHalf, List.any_eq_false]
  simp

theorem any_isHalf_map_toNat (text : List Char) : (text.map Char.toNat).any isHalf = false := by
  rw [List.any_map, List.any_eq_false]
  intro c _
  simp [isHalf_toNat]

theorem holdsHalf_append_of_isPlain {text : String} (h : IsPlain text) (before : String) :
    holdsHalf (before ++ text) = holdsHalf before := by
  rw [holdsHalf, h.append_points, List.any_append, any_isHalf_map_toNat, Bool.or_false, holdsHalf]

theorem holdsHalf_of_isPlain_append {text : String} (h : IsPlain text) (rest : String) :
    holdsHalf (text ++ rest) = holdsHalf rest := by
  rw [holdsHalf, h.points_append, List.any_append, any_isHalf_map_toNat, Bool.false_or, holdsHalf]

theorem holdsHalf_append_append {text : String} (h : IsPlain text) (hn : text ≠ "")
    (before rest : String) :
    holdsHalf (before ++ text ++ rest) = (holdsHalf before || holdsHalf rest) := by
  rw [holdsHalf, h.append_points_append hn, List.any_append, List.any_append, any_isHalf_map_toNat,
    Bool.or_false, holdsHalf, holdsHalf]

theorem isRepresentable_iff {text : String} :
    isRepresentable text = true ↔
      ∀ point ∈ points text.toList,
        point ≠ 0 ∧ (isHalf point = true → isByteHalf point = true) := by
  rw [isRepresentable, List.all_eq_true]
  refine forall_congr' fun point => imp_congr_right fun _ => ?_
  cases isHalf point <;> cases isByteHalf point <;> simp

theorem pathFaultFrom?_eq_none_iff {place : Nat} {text : String} :
    pathFaultFrom? place text = none ↔ isRepresentable text = true := by
  have hencodes := encodeErrorFrom?_eq_none_iff isByteHalf place (points text.toList)
  rw [isRepresentable_iff, pathFaultFrom?]
  cases he : encodeErrorFrom? isByteHalf place (points text.toList) with
  | some cause =>
    simp only [he, reduceCtorEq, false_iff] at hencodes ⊢
    exact fun h => hencodes fun point hp => (h point hp).2
  | none =>
    simp only [ite_eq_right_iff, List.contains_iff_mem, reduceCtorEq, imp_false]
    constructor
    · exact fun hnull point hp => ⟨fun hz => hnull (hz ▸ hp), hencodes.mp he point hp⟩
    · exact fun h hnull => (h 0 hnull).1 rfl

end ImportAlias.Text
