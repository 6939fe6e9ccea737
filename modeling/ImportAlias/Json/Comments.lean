import ImportAlias.Text.Blank
import ImportAlias.Text.Search

/-!
# JSON with comments

Configuration files may hold comments and a comma in front of a closing
bracket. Both are taken out of the text before it is read, in two passes:
comments first, then commas. String literals are stepped over as a whole, so
that nothing inside them is touched; a quote that no other quote closes and a
block comment that is never closed are kept as they stand.
-/

namespace ImportAlias.Json

/-- The rest of a string literal behind its opening quote, up to the quote that closes it, and
the text behind that. A backslash takes the next character with it, a line break only where
`acrossLines` allows it. -/
def literalEnd? (acrossLines : Bool) : List Char → Option (List Char × List Char)
  | [] => none
  | '"' :: rest => some (['"'], rest)
  | '\\' :: c :: rest =>
    if c = '\n' ∧ acrossLines = false then none
    else (literalEnd? acrossLines rest).map fun (literal, rest) => ('\\' :: c :: literal, rest)
  | c :: rest =>
    if c = '\\' then none
    else (literalEnd? acrossLines rest).map fun (literal, rest) => (c :: literal, rest)

theorem eq_append_of_literalEnd? {acrossLines : Bool} {text literal rest : List Char}
    (h : literalEnd? acrossLines text = some (literal, rest)) : text = literal ++ rest := by
  fun_induction literalEnd? acrossLines text generalizing literal with
  | case1 => simp at h
  | case2 tail =>
    obtain ⟨rfl, rfl⟩ : ['"'] = literal ∧ tail = rest := by simpa using h
    rfl
  | case3 => simp at h
  | case4 c tail _ ih =>
    obtain ⟨⟨l, r⟩, hl, he⟩ := Option.map_eq_some_iff.mp h
    simp only [Prod.mk.injEq] at he
    obtain ⟨rfl, rfl⟩ := he
    simp [← ih hl]
  | case5 => simp at h
  | case6 c tail _ _ _ ih =>
    obtain ⟨⟨l, r⟩, hl, he⟩ := Option.map_eq_some_iff.mp h
    simp only [Prod.mk.injEq] at he
    obtain ⟨rfl, rfl⟩ := he
    simp [← ih hl]

theorem length_of_literalEnd? {acrossLines : Bool} {text literal rest : List Char}
    (h : literalEnd? acrossLines text = some (literal, rest)) : rest.length ≤ text.length := by
  simp [eq_append_of_literalEnd? h]

/-- What follows the end of a block comment. -/
def blockEnd? : List Char → Option (List Char)
  | [] => none
  | '*' :: '/' :: rest => some rest
  | _ :: rest => blockEnd? rest

theorem length_of_blockEnd? {text rest : List Char} (h : blockEnd? text = some rest) :
    rest.length ≤ text.length := by
  fun_induction blockEnd? text with
  | case1 => simp at h
  | case2 tail => simp_all; omega
  | case3 c tail _ ih => have := ih h; simp; omega

/-- Takes out `//` comments, which end before the line does, and `/* */` comments. -/
def removeComments : List Char → List Char
  | [] => []
  | '"' :: rest =>
    match _h : literalEnd? true rest with
    | some (literal, tail) => '"' :: literal ++ removeComments tail
    | none => '"' :: removeComments rest
  | '/' :: '/' :: rest => removeComments (rest.dropWhile (· ≠ '\n'))
  | '/' :: '*' :: rest =>
    match _h : blockEnd? rest with
    | some tail => removeComments tail
    | none => '/' :: removeComments ('*' :: rest)
  | c :: rest => c :: removeComments rest
termination_by text => text.length
decreasing_by
  · have := length_of_literalEnd? _h; simp; omega
  · simp
  · have := Text.length_dropWhile_le (· ≠ '\n') rest; simp only [List.length_cons]; omega
  · have := length_of_blockEnd? _h; simp; omega
  · simp
  · simp

/-- Whether white space and then a closing bracket come next. -/
def closesNext (text : List Char) : Bool :=
  match text.dropWhile Text.isBlank with
  | ']' :: _ => true
  | '}' :: _ => true
  | _ => false

/-- Takes out the commas in front of a closing bracket. -/
def removeTrailingCommas : List Char → List Char
  | [] => []
  | '"' :: rest =>
    match _h : literalEnd? false rest with
    | some (literal, tail) => '"' :: literal ++ removeTrailingCommas tail
    | none => '"' :: removeTrailingCommas rest
  | ',' :: rest =>
    if closesNext rest then removeTrailingCommas rest else ',' :: removeTrailingCommas rest
  | c :: rest => c :: removeTrailingCommas rest
termination_by text => text.length
decreasing_by
  · have := length_of_literalEnd? _h; simp; omega
  all_goals simp

/-- The text without its comments and trailing commas. -/
def stripComments (text : List Char) : List Char :=
  removeTrailingCommas (removeComments text)

end ImportAlias.Json
