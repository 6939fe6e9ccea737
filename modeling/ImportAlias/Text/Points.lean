/-!
# Code points

A text is a list of code points. It may hold half of a surrogate pair on its
own, which no character of a string can be, so a string spells some code points
by two characters, a mark and a place: the halves, and the marks and places
themselves, a block of code points that are no characters yet. Every other code
point is spelled by its own character.

A mark is always followed by a place, and a place stands nowhere else, so what
is found in a spelling is found in the text: strings are compared, joined, cut
and searched as they are. Only what counts or shows code points reads the
spelling, and what comes from outside is spelled first. The main statement is
that a spelling reads back.
-/

namespace ImportAlias.Text

/-- How many places there are. -/
def placeCount : Nat := 0x800

def firstPlace : Nat := 0xDD800

def markCount : Nat := 3

def firstMark : Nat := firstPlace + placeCount

def firstHalf : Nat := 0xD800

def isPlace (code : Nat) : Bool :=
  firstPlace ≤ code && code < firstMark

def isMark (code : Nat) : Bool :=
  firstMark ≤ code && code < firstMark + markCount

/-- Whether a code point is half of a surrogate pair. -/
def isHalf (point : Nat) : Bool :=
  firstHalf ≤ point && point < firstHalf + placeCount

/-- The number of a code point among those that are spelled by a mark and a place: the block in its
order, then the halves. The block takes the first two marks, and the halves the third one. -/
def spellingNumber? (point : Nat) : Option Nat :=
  if isPlace point || isMark point then some (point - firstPlace)
  else if isHalf point then some (2 * placeCount + (point - firstHalf))
  else none

/-- The characters that spell a code point. -/
def spelling (point : Nat) : List Char :=
  match spellingNumber? point with
  | some n => [Char.ofNat (firstMark + n / placeCount), Char.ofNat (firstPlace + n % placeCount)]
  | none => [Char.ofNat point]

/-- The code point that a mark and a place spell. -/
def spelledBy (mark place : Nat) : Nat :=
  let n := (mark - firstMark) * placeCount + (place - firstPlace)
  if n < 2 * placeCount then firstPlace + n else firstHalf + (n - 2 * placeCount)

/-- The code points that characters spell. -/
def points : List Char → List Nat
  | [] => []
  | [c] => [c.toNat]
  | mark :: place :: rest =>
    if isMark mark.toNat && isPlace place.toNat then
      spelledBy mark.toNat place.toNat :: points rest
    else mark.toNat :: points (place :: rest)

/-- The string that spells a text. -/
def ofPoints (text : List Nat) : String :=
  String.ofList (text.flatMap spelling)

/-- The string that spells characters. -/
def ofChars (chars : List Char) : String :=
  ofPoints (chars.map Char.toNat)

/-- The character for a code point, a replacement for half of a pair. -/
def charOf (point : Nat) : Char :=
  if isHalf point then '\uFFFD' else Char.ofNat point

/-- The characters of a text. -/
def chars (text : String) : List Char :=
  (points text.toList).map charOf

/-- A text as it stands outside. -/
def plain (text : String) : String :=
  String.ofList (chars text)

/-- How many code points a text has. -/
def width (text : String) : Nat :=
  (points text.toList).length

theorem toNat_ofNat_of_isValid {code : Nat} (h : code.isValidChar) :
    (Char.ofNat code).toNat = code := by
  rw [Char.ofNat, dif_pos h]
  rfl

theorem points_cons_of_not_isMark {c : Char} (h : isMark c.toNat = false) (rest : List Char) :
    points (c :: rest) = c.toNat :: points rest := by
  cases rest <;> simp [points, h]

/-- Only a mark is joined with what follows it, and only to a place. -/
theorem points_append {before rest : List Char} (h : ∀ c ∈ rest.head?, isPlace c.toNat = false) :
    points (before ++ rest) = points before ++ points rest := by
  fun_induction points before with
  | case1 => rfl
  | case2 c =>
    cases rest with
    | nil => rfl
    | cons d rest =>
      have hplace : isPlace d.toNat = false := h d rfl
      simp [points, hplace]
  | case3 mark place rest' hspelled ih => simp [points, hspelled, ih]
  | case4 mark place rest' hspelled ih =>
    rw [List.cons_append] at ih
    simp [points, hspelled, ih]

theorem points_append_of_plain {front : List Char} (h : ∀ c ∈ front, isMark c.toNat = false)
    (rest : List Char) : points (front ++ rest) = front.map Char.toNat ++ points rest := by
  induction front with
  | nil => rfl
  | cons c front ih =>
    rw [List.cons_append, points_cons_of_not_isMark (h c (by simp)),
      ih fun d hd => h d (by simp [hd])]
    rfl

/-- A text without marks and places, in which every character stands for itself. -/
def IsPlain (text : String) : Prop :=
  ∀ c ∈ text.toList, isMark c.toNat = false ∧ isPlace c.toNat = false

instance (text : String) : Decidable (IsPlain text) :=
  List.decidableBAll (fun c : Char => isMark c.toNat = false ∧ isPlace c.toNat = false) text.toList

theorem IsPlain.points_append {text : String} (h : IsPlain text) (rest : String) :
    points (text ++ rest).toList = text.toList.map Char.toNat ++ points rest.toList := by
  rw [String.toList_append, points_append_of_plain fun c hc => (h c hc).1]

theorem IsPlain.append_points {text : String} (h : IsPlain text) (before : String) :
    points (before ++ text).toList = points before.toList ++ text.toList.map Char.toNat := by
  have htext := h.points_append ""
  rw [String.append_empty, String.toList_empty, points, List.append_nil] at htext
  have hhead : ∀ c ∈ text.toList.head?, isPlace c.toNat = false :=
    fun c hc => (h c (List.mem_of_mem_head? hc)).2
  rw [String.toList_append, Text.points_append hhead, htext]

theorem IsPlain.append_points_append {text : String} (h : IsPlain text) (hn : text ≠ "")
    (before rest : String) : points (before ++ text ++ rest).toList =
      points before.toList ++ text.toList.map Char.toNat ++ points rest.toList := by
  have hhead : ∀ c ∈ (text ++ rest).toList.head?, isPlace c.toNat = false := by
    intro c hc
    cases htext : text.toList with
    | nil => exact absurd (String.toList_eq_nil_iff.mp htext) hn
    | cons first others =>
      rw [String.toList_append, htext] at hc
      obtain rfl : first = c := Option.some.inj hc
      exact (h first (htext ▸ List.mem_cons_self)).2
  rw [String.append_assoc, String.toList_append, Text.points_append hhead, h.points_append,
    List.append_assoc]

theorem isHalf_iff {point : Nat} : isHalf point = true ↔ 0xD800 ≤ point ∧ point < 0xE000 := by
  simp only [isHalf, Bool.and_eq_true, decide_eq_true_eq]
  simp only [firstHalf, placeCount]

theorem isBlock_iff {point : Nat} :
    (isPlace point || isMark point) = true ↔ 0xDD800 ≤ point ∧ point < 0xDE003 := by
  simp only [isPlace, isMark, Bool.or_eq_true, Bool.and_eq_true, decide_eq_true_eq]
  simp only [firstMark, firstPlace, placeCount, markCount]
  omega

theorem isHalf_toNat (c : Char) : isHalf c.toNat = false := by
  have hv : c.toNat < 0xD800 ∨ (0xDFFF < c.toNat ∧ c.toNat < 0x110000) := c.valid
  rw [Bool.eq_false_iff, ne_eq, isHalf_iff]
  omega

theorem spellingNumber?_lt {point n : Nat} (h : spellingNumber? point = some n) :
    n < markCount * placeCount := by
  simp only [markCount, placeCount]
  unfold spellingNumber? at h
  split at h
  · rename_i hb
    have := isBlock_iff.mp hb
    simp only [firstPlace, Option.some.injEq] at h
    omega
  · split at h
    · rename_i hh
      have := isHalf_iff.mp hh
      simp only [firstHalf, placeCount, Option.some.injEq] at h
      omega
    · simp at h

theorem spelledBy_of_spellingNumber? {point n : Nat} (h : spellingNumber? point = some n) :
    spelledBy (firstMark + n / placeCount) (firstPlace + n % placeCount) = point := by
  simp only [spelledBy, Nat.add_sub_cancel_left, Nat.div_add_mod']
  unfold spellingNumber? at h
  split at h
  · rename_i hb
    have := isBlock_iff.mp hb
    simp only [firstPlace, Option.some.injEq] at h
    rw [if_pos (by simp only [placeCount]; omega), firstPlace]
    omega
  · split at h
    · rename_i hh
      have := isHalf_iff.mp hh
      simp only [firstHalf, placeCount, Option.some.injEq] at h
      rw [if_neg (by simp only [placeCount]; omega), firstHalf, placeCount]
      omega
    · simp at h

theorem eq_false_of_spellingNumber?_eq_none {point : Nat} (h : spellingNumber? point = none) :
    isMark point = false ∧ isHalf point = false := by
  unfold spellingNumber? at h
  split at h
  · simp at h
  · split at h
    · simp at h
    · simp_all

theorem points_spelling_append {point : Nat} (h : point < 0x110000) (rest : List Char) :
    points (spelling point ++ rest) = point :: points rest := by
  cases hn : spellingNumber? point with
  | some n =>
    have hl := spellingNumber?_lt hn
    have hm : (Char.ofNat (firstMark + n / placeCount)).toNat = firstMark + n / placeCount :=
      toNat_ofNat_of_isValid
        (Or.inr (by simp only [firstMark, firstPlace, placeCount, markCount] at hl ⊢; omega))
    have hp : (Char.ofNat (firstPlace + n % placeCount)).toNat = firstPlace + n % placeCount :=
      toNat_ofNat_of_isValid
        (Or.inr (by simp only [firstPlace, placeCount] at hl ⊢; omega))
    have hb : (isMark (firstMark + n / placeCount) && isPlace (firstPlace + n % placeCount)) =
        true := by
      simp only [isMark, isPlace, Bool.and_eq_true, decide_eq_true_eq]
      simp only [firstMark, firstPlace, placeCount, markCount] at hl ⊢
      omega
    simp only [spelling, hn, List.cons_append, List.nil_append, points, hm, hp, hb, if_true,
      spelledBy_of_spellingNumber? hn]
  | none =>
    obtain ⟨hm, hh⟩ := eq_false_of_spellingNumber?_eq_none hn
    have hc : (Char.ofNat point).toNat = point := by
      have := mt isHalf_iff.mpr (Bool.not_eq_true _ ▸ hh)
      exact toNat_ofNat_of_isValid (by unfold Nat.isValidChar; omega)
    rw [← hc] at hm
    simp only [spelling, hn, List.cons_append, List.nil_append]
    rw [points_cons_of_not_isMark hm, hc]

theorem points_flatMap_spelling {text : List Nat} (h : ∀ point ∈ text, point < 0x110000) :
    points (text.flatMap spelling) = text := by
  induction text with
  | nil => rfl
  | cons point rest ih =>
    rw [List.flatMap_cons, points_spelling_append (h point (by simp)),
      ih fun other hm => h other (by simp [hm])]

/-- Characters are no halves of pairs, so they come back too. -/
theorem chars_ofChars (text : List Char) : chars (ofChars text) = text := by
  have hp : ∀ point ∈ text.map Char.toNat, point < 0x110000 := by
    intro point hm
    obtain ⟨c, -, rfl⟩ := List.mem_map.mp hm
    have hv : c.toNat < 0xD800 ∨ (0xDFFF < c.toNat ∧ c.toNat < 0x110000) := c.valid
    omega
  have hc : charOf ∘ Char.toNat = id := by
    funext c
    simp [charOf, isHalf_toNat, Char.ofNat_toNat]
  rw [chars, ofChars, ofPoints, String.toList_ofList, points_flatMap_spelling hp, List.map_map, hc,
    List.map_id]

end ImportAlias.Text
