import ImportAlias.Proofs.Stripping

/-!
# Reading a bare document

The reader takes the bare text of a document to the value that the structure of
the document gives it, or refuses it for the first of its integers that has too
many digits. The reader is a machine over tokens, so what is shown of a value,
of items and of members is where the machine stands behind them.
-/

namespace ImportAlias.Json

/-- Whether a number or a word has to end in front of a text. -/
def Ends (rest : List Char) : Prop :=
  ∀ c ∈ rest.head?, isScalarChar c = false

theorem takeWhile_isDigit {digits rest : List Char} (hd : ∀ c ∈ digits, c.isDigit = true)
    (hr : ∀ c ∈ rest.head?, c.isDigit = false) :
    (digits ++ rest).takeWhile Char.isDigit = digits ∧
      (digits ++ rest).dropWhile Char.isDigit = rest := by
  rw [List.takeWhile_append_of_pos hd, List.dropWhile_append_of_pos hd]
  cases rest with
  | nil => simp
  | cons c rest => simp [hr c rfl]

theorem isDigit_of_not_isScalarChar {c : Char} (h : isScalarChar c = false) :
    c.isDigit = false := by
  rw [Bool.eq_false_iff] at h ⊢
  exact mt isScalarChar_of_isDigit h

theorem sign_append {mark : Option Char} (hm : mark = none ∨ mark = some '+' ∨ mark = some '-')
    {digits : List Char} (hn : digits ≠ []) (hd : ∀ c ∈ digits, c.isDigit = true)
    (rest : List Char) :
    sign (mark.toList ++ (digits ++ rest)) = (decide (mark = some '-'), digits ++ rest) := by
  rcases hm with rfl | rfl | rfl
  · cases digits with
    | nil => contradiction
    | cons d digits =>
      have hd := hd d (by simp)
      have hp : d ≠ '+' := by rintro rfl; revert hd; decide
      have hm : d ≠ '-' := by rintro rfl; revert hd; decide
      simp only [Option.toList_none, List.nil_append, List.cons_append]
      rw [sign] <;> simp [hp, hm]
  · rfl
  · rfl

theorem Power.exponent?_written (power : Power) {rest : List Char} (hr : Ends rest) :
    exponent? (power.written ++ rest) = (some power.value, rest) := by
  obtain ⟨mark, sgn, digits, hm, hs, hn, hd⟩ := power
  have hw := takeWhile_isDigit hd fun c hc => isDigit_of_not_isScalarChar (hr c hc)
  simp only [Power.written, List.cons_append, List.append_assoc, exponent?, if_pos hm,
    sign_append hs hn hd, hw, Power.value]
  simp [hn]

namespace Number

theorem exponent?_powerText (number : Number) {rest : List Char} (hr : Ends rest) :
    exponent? (number.powerText ++ rest) = (number.power.map Power.value, rest) := by
  unfold powerText
  cases number.power with
  | some power => exact power.exponent?_written hr
  | none =>
    cases rest with
    | nil => rfl
    | cons c rest =>
      have hc : ¬ (c = 'e' ∨ c = 'E') := by
        have := hr c rfl
        rintro (rfl | rfl) <;> revert this <;> decide
      simp [exponent?, hc]

theorem head?_powerText (number : Number) {rest : List Char} (hr : Ends rest) :
    ∀ c ∈ (number.powerText ++ rest).head?, c.isDigit = false ∧ c ≠ '.' := by
  intro c hc
  unfold powerText at hc
  cases hp : number.power with
  | some power =>
    obtain rfl : power.mark = c := by simpa [hp, Power.written] using hc
    rcases power.mark_eq with h | h <;> rw [h] <;> decide
  | none =>
    have hs := hr c (by simpa [hp] using hc)
    refine ⟨isDigit_of_not_isScalarChar hs, ?_⟩
    rintro rfl
    revert hs
    decide

theorem fraction_fractionText (number : Number) {rest : List Char} (hr : Ends rest) :
    fraction (number.fractionText ++ (number.powerText ++ rest)) =
      (number.decimals, number.powerText ++ rest) := by
  have hh := number.head?_powerText hr
  generalize number.powerText ++ rest = text at hh
  unfold fractionText
  by_cases hn : number.decimals = []
  · cases text with
    | nil => simp [hn, fraction]
    | cons c text =>
      have hc := (hh c rfl).2
      rw [hn, List.isEmpty_nil, if_pos rfl, List.nil_append, fraction]
      simpa using hc
  · have hw := takeWhile_isDigit number.decimals_isDigit fun c hc => (hh c hc).1
    simp [hn, fraction, hw]

theorem head?_fractionText (number : Number) {rest : List Char} (hr : Ends rest) :
    ∀ c ∈ (number.fractionText ++ (number.powerText ++ rest)).head?, c.isDigit = false := by
  intro c hc
  unfold fractionText at hc
  by_cases hn : number.decimals = []
  · exact (number.head?_powerText hr c (by simpa [hn] using hc)).1
  · obtain rfl : '.' = c := by simpa [hn] using hc
    decide

/-- The token of a number. -/
def token (number : Number) (start : List Char) : Token :=
  match number.value with
  | .ok value => .scalar value
  | .error fault => .badNumber ⟨fault, start⟩

theorem number_eq (number : Number) (start : List Char) {rest : List Char} (hr : Ends rest) :
    Json.number start number.negative number.whole
      (number.fractionText ++ (number.powerText ++ rest)) = (number.token start, rest) := by
  unfold Json.number token value
  simp only [number.fraction_fractionText hr, number.exponent?_powerText hr, Option.isNone_map]
  split
  · split <;> rfl
  · cases number.power <;> simp

theorem number?_eq (number : Number) (start : List Char) {rest : List Char} (hr : Ends rest) :
    number? start number.negative
      (number.whole ++ (number.fractionText ++ (number.powerText ++ rest))) =
        some (number.token start, rest) := by
  have hn := number.number_eq start hr
  have hh := number.head?_fractionText hr
  generalize number.fractionText ++ (number.powerText ++ rest) = text at hn hh
  obtain ⟨c, digits, he⟩ := List.exists_cons_of_ne_nil number.whole_ne
  have hd := number.whole_isDigit
  rw [he, List.forall_mem_cons] at hd
  by_cases hz : c = '0'
  · subst hz
    have hw : number.whole = ['0'] := number.whole_zero (by rw [he]; rfl)
    rw [hw] at hn ⊢
    exact congrArg some hn
  · have hw := takeWhile_isDigit hd.2 hh
    rw [he] at hn ⊢
    rw [List.cons_append, number?]
    · rw [if_pos hd.1, hw.1, hw.2, hn]
    · exact hz

end Number

theorem word?_eq_none {c : Char} (hc : c.isDigit = true) (rest : List Char) :
    word? (c :: rest) = none ∧ word? ('-' :: c :: rest) = none := by
  have hn : ∀ d : Char, d.isDigit = false → ¬ d = c := by
    rintro d hd rfl
    simp [hc] at hd
  constructor <;> simp [word?, words, Text.after?, hn]

theorem punctuation?_eq_none {c : Char} (hc : c.isDigit = true) : punctuation? c = none := by
  have hn : ∀ d : Char, d.isDigit = false → c ≠ d := by
    rintro d hd rfl
    simp [hc] at hd
  rw [punctuation?] <;> exact hn _ (by decide)

theorem tokenAt_number (number : Number) {rest : List Char} (hr : Ends rest) :
    ∃ c chars, number.written = c :: chars ∧
      tokenAt c (chars ++ rest) = (number.token (number.written ++ rest), rest) := by
  obtain ⟨c, digits, he⟩ := List.exists_cons_of_ne_nil number.whole_ne
  have hc : c.isDigit = true := number.whole_isDigit c (by simp [he])
  have hn := number.number?_eq (number.written ++ rest) hr
  cases hneg : number.negative with
  | false =>
    have hw : number.written = c :: (digits ++ (number.fractionText ++ number.powerText)) := by
      simp [Number.written, hneg, he]
    have hq : c ≠ '"' := by rintro rfl; revert hc; decide
    have hm : c ≠ '-' := by rintro rfl; revert hc; decide
    refine ⟨c, _, hw, ?_⟩
    simp only [hw, hneg, he, List.cons_append, List.append_assoc] at hn ⊢
    simp [tokenAt, punctuation?_eq_none hc, hq, (word?_eq_none hc _).1, hm, hn]
  | true =>
    have hw : number.written =
        '-' :: (c :: (digits ++ (number.fractionText ++ number.powerText))) := by
      simp [Number.written, hneg, he]
    refine ⟨'-', _, hw, ?_⟩
    simp only [hw, hneg, he, List.cons_append, List.append_assoc] at hn ⊢
    simp [tokenAt, punctuation?, (word?_eq_none hc _).2, hn]

theorem tokenAt_word {word : String} {value : Value} (hw : (word, value) ∈ words)
    (rest : List Char) :
    ∃ c chars, word.toList = c :: chars ∧ tokenAt c (chars ++ rest) = (.scalar value, rest) := by
  simp only [words, List.mem_cons, Prod.mk.injEq, List.not_mem_nil, or_false] at hw
  rcases hw with ⟨rfl, rfl⟩ | ⟨rfl, rfl⟩ | ⟨rfl, rfl⟩ | ⟨rfl, rfl⟩ | ⟨rfl, rfl⟩ | ⟨rfl, rfl⟩ <;>
    exact ⟨_, _, rfl, rfl⟩

theorem textUnits_letter (opening : List Char) (letter : Letter) {rest : List Char}
    (hr : rest ≠ []) :
    textUnits opening (letter.written ++ rest) =
      withUnit letter.unit (textUnits opening rest) := by
  cases letter with
  | plain c hq hb hc =>
    have hc : ¬ c.toNat < 0x20 := by omega
    simp only [Letter.written, List.cons_append, List.nil_append, Letter.unit]
    rw [textUnits] <;> simp [hq, hb, hc]
  | escape c stands hc =>
    have hu : c ≠ 'u' := by rintro rfl; simp [escaped?] at hc
    simp only [Letter.written, List.cons_append, List.nil_append, Letter.unit]
    rw [textUnits]
    · simp [hc]
    · simp [hu]
  | code a b c d unit hu =>
    obtain ⟨next, tail, rfl⟩ := List.exists_cons_of_ne_nil hr
    simp only [Letter.written, List.cons_append, List.nil_append, Letter.unit]
    rw [textUnits, hu]

theorem textUnits_letters (opening : List Char) (letters : List Letter) (rest : List Char) :
    textUnits opening (letters.flatMap Letter.written ++ '"' :: rest) =
      .ok (letters.map Letter.unit, rest) := by
  induction letters with
  | nil => simp [textUnits]
  | cons letter letters ih =>
    rw [List.flatMap_cons, List.append_assoc, textUnits_letter opening letter (by simp), ih]
    rfl

theorem tokenAt_text (literal : Literal) (rest : List Char) :
    tokenAt '"' (literal.flatMap Letter.written ++ '"' :: rest) = (.text literal.text, rest) := by
  simp [tokenAt, punctuation?, textUnits_letters, Literal.text]

theorem tokens_eq_of_dropWhile {text : List Char} :
    tokens text =
      match text.dropWhile Text.isJsonSpace with
      | [] => []
      | c :: rest => ((tokenAt c rest).1, c :: rest) :: tokens (tokenAt c rest).2 := by
  rw [tokens]
  split <;> rename_i h <;> simp only [h]

theorem tokens_space_append {blanks : List Char} (hb : ∀ c ∈ blanks, Text.isJsonSpace c = true)
    (rest : List Char) : tokens (blanks ++ rest) = tokens rest := by
  rw [tokens_eq_of_dropWhile, List.dropWhile_append_of_pos hb, ← tokens_eq_of_dropWhile]

theorem tokens_cons {c : Char} (hc : Text.isJsonSpace c = false) (rest : List Char) :
    tokens (c :: rest) = ((tokenAt c rest).1, c :: rest) :: tokens (tokenAt c rest).2 := by
  rw [tokens_eq_of_dropWhile, List.dropWhile_cons_of_neg (by simp [hc])]

theorem isJsonSpace_of_not_isBlank {c : Char} (hc : Text.isBlank c = false) :
    Text.isJsonSpace c = false := by
  rw [Bool.eq_false_iff] at hc ⊢
  exact mt Text.isBlank_of_isJsonSpace hc

theorem Filler.isJsonSpace (filler : Filler) : ∀ c ∈ filler.bare, Text.isJsonSpace c = true := by
  cases filler with
  | blank c hc => simpa [Filler.bare] using hc
  | block => simp [Filler.bare]
  | line => simp only [Filler.bare, List.mem_singleton, forall_eq]; decide

theorem isJsonSpace_gap (fillers : Gap) :
    ∀ c ∈ (Piece.gap fillers).flatMap Piece.bare, Text.isJsonSpace c = true := by
  intro c hc
  obtain ⟨piece, hp, hm⟩ := List.mem_flatMap.mp hc
  obtain ⟨filler, -, rfl⟩ := List.mem_map.mp hp
  exact filler.isJsonSpace c hm

theorem tokens_gap (fillers : Gap) (rest : List Char) :
    tokens ((Piece.gap fillers).flatMap Piece.bare ++ rest) = tokens rest :=
  tokens_space_append (isJsonSpace_gap fillers) rest

/-- What the reader makes of a text, from a state on. -/
def outcome (reading : Reading) (text : List Char) : Except Fault Value :=
  (reading.run (tokens text)).mapError Misread.fault

theorem outcome_of_tokens {text rest start : List Char} {token : Token} (reading : Reading)
    (h : tokens text = (token, start) :: tokens rest) :
    outcome reading text =
      (reading.step token start).mapError Misread.fault >>= fun next => outcome next rest := by
  rw [outcome, h, Reading.run]
  cases reading.step token start <;> rfl

@[simp] theorem outcome_gap (reading : Reading) (fillers : Gap) (rest : List Char) :
    outcome reading ((Piece.gap fillers).flatMap Piece.bare ++ rest) = outcome reading rest := by
  rw [outcome, tokens_gap, outcome]

namespace Mark

def token : Mark → Token
  | openObject => .openObject
  | closeObject => .closeObject
  | openArray => .openArray
  | closeArray => .closeArray
  | colon => .colon
  | comma => .comma

theorem tokens_eq (mark : Mark) (rest : List Char) :
    tokens (mark.char :: rest) = (mark.token, mark.char :: rest) :: tokens rest := by
  cases mark <;> exact tokens_cons (by decide) rest

end Mark

theorem Literal.tokens_eq (literal : Literal) (rest : List Char) :
    tokens (literal.written ++ rest) =
      (.text literal.text, literal.written ++ rest) :: tokens rest := by
  rw [Literal.written, List.cons_append, tokens_cons (by decide), List.append_assoc,
    List.singleton_append, tokenAt_text]

namespace Scalar

/-- The token of a scalar. -/
def token (scalar : Scalar) (start : List Char) : Token :=
  match scalar.value with
  | .ok value => .scalar value
  | .error fault => .badNumber ⟨fault, start⟩

theorem tokenAt_eq (scalar : Scalar) {rest : List Char} (hr : Ends rest) :
    ∃ c chars, scalar.written = c :: chars ∧
      tokenAt c (chars ++ rest) = (scalar.token (scalar.written ++ rest), rest) := by
  cases scalar with
  | number number => exact tokenAt_number number hr
  | word word value hw => exact tokenAt_word hw rest

theorem tokens_eq (scalar : Scalar) {rest : List Char} (hr : Ends rest) :
    tokens (scalar.written ++ rest) =
      (scalar.token (scalar.written ++ rest), scalar.written ++ rest) :: tokens rest := by
  obtain ⟨c, chars, hw, ht⟩ := scalar.tokenAt_eq hr
  have hs : Text.isJsonSpace c = false :=
    isJsonSpace_of_not_isBlank (isBlank_of_isScalarChar (scalar.isScalarChar c (by simp [hw])))
  rw [hw] at ht ⊢
  rw [List.cons_append, tokens_cons hs, ht, List.cons_append]

end Scalar

theorem outcome_scalar (scalar : Scalar) (outer : List Frame) {rest : List Char} (hr : Ends rest) :
    outcome (.wantsValue outer) (scalar.written ++ rest) =
      scalar.value >>= fun value => outcome (.close value outer) rest := by
  rw [outcome_of_tokens _ (scalar.tokens_eq hr), Scalar.token]
  cases scalar.value <;> rfl

theorem ends_append_of_space {blanks rest : List Char}
    (hb : ∀ c ∈ blanks, Text.isJsonSpace c = true) (hr : Ends rest) : Ends (blanks ++ rest) := by
  cases blanks with
  | nil => exact hr
  | cons c blanks =>
    intro d hd
    obtain rfl : c = d := by simpa using hd
    have hs := Text.isBlank_of_isJsonSpace (hb c (by simp))
    rw [← Bool.not_eq_true]
    intro h
    simp [isBlank_of_isScalarChar h] at hs

theorem ends_gap (fillers : Gap) {rest : List Char} (hr : Ends rest) :
    Ends ((Piece.gap fillers).flatMap Piece.bare ++ rest) :=
  ends_append_of_space (isJsonSpace_gap fillers) hr

theorem ends_mark (mark : Mark) (rest : List Char) : Ends (mark.char :: rest) := by
  intro c hc
  obtain rfl : mark.char = c := by simpa using hc
  cases mark <;> decide

theorem ends_extra (fillers : Option Gap) {rest : List Char} (hr : Ends rest) :
    Ends ((Piece.extra fillers).flatMap Piece.bare ++ rest) := by
  cases fillers with
  | none => exact hr
  | some fillers => exact ends_gap fillers hr

@[simp] theorem outcome_extra (reading : Reading) (fillers : Option Gap) (rest : List Char) :
    outcome reading ((Piece.extra fillers).flatMap Piece.bare ++ rest) = outcome reading rest := by
  cases fillers with
  | none => rfl
  | some fillers => exact outcome_gap reading fillers rest

theorem outcome_mark (reading : Reading) (mark : Mark) (rest : List Char) :
    outcome reading (mark.char :: rest) =
      (reading.step mark.token (mark.char :: rest)).mapError Misread.fault >>= fun next =>
        outcome next rest :=
  outcome_of_tokens reading (mark.tokens_eq rest)

theorem outcome_text (reading : Reading) (literal : Literal) (rest : List Char) :
    outcome reading (literal.written ++ rest) =
      (reading.step (.text literal.text) (literal.written ++ rest)).mapError Misread.fault >>=
        fun next => outcome next rest :=
  outcome_of_tokens reading (literal.tokens_eq rest)

theorem flatMap_bare_cons (piece : Piece) (pieces : List Piece) (rest : List Char) :
    (piece :: pieces).flatMap Piece.bare ++ rest =
      piece.bare ++ (pieces.flatMap Piece.bare ++ rest) := by
  simp

theorem flatMap_bare_append (first second : List Piece) (rest : List Char) :
    (first ++ second).flatMap Piece.bare ++ rest =
      first.flatMap Piece.bare ++ (second.flatMap Piece.bare ++ rest) := by
  simp

theorem flatMap_bare_mark (mark : Mark) (pieces : List Piece) (rest : List Char) :
    (Piece.mark mark :: pieces).flatMap Piece.bare ++ rest =
      mark.char :: (pieces.flatMap Piece.bare ++ rest) := by
  simp [Piece.bare]

theorem Element.outcome_first (element : Element) (outer : List Frame) {rest : List Char}
    (hr : Ends rest) :
    outcome (.wantsFirstItem outer) (element.pieces.flatMap Piece.bare ++ rest) =
      outcome (.wantsValue (.items [] :: outer)) (element.pieces.flatMap Piece.bare ++ rest) := by
  cases element with
  | scalar scalar after =>
    rw [Element.pieces, flatMap_bare_cons, Piece.bare,
      outcome_of_tokens _ (scalar.tokens_eq (ends_gap after hr)),
      outcome_of_tokens _ (scalar.tokens_eq (ends_gap after hr)), Scalar.token]
    cases scalar.value <;> rfl
  | text literal after =>
    rw [Element.pieces, flatMap_bare_cons, Piece.bare, outcome_text, outcome_text]
    rfl
  | emptyArray inside after =>
    rw [Element.pieces, flatMap_bare_mark, outcome_mark, outcome_mark]
    rfl
  | array inside items after =>
    rw [Element.pieces, flatMap_bare_mark, outcome_mark, outcome_mark]
    rfl
  | emptyObject inside after =>
    rw [Element.pieces, flatMap_bare_mark, outcome_mark, outcome_mark]
    rfl
  | object inside members after =>
    rw [Element.pieces, flatMap_bare_mark, outcome_mark, outcome_mark]
    rfl

theorem Items.outcome_first (items : Items) (outer : List Frame) {rest : List Char}
    (hr : Ends rest) :
    outcome (.wantsFirstItem outer) (items.pieces.flatMap Piece.bare ++ rest) =
      outcome (.wantsValue (.items [] :: outer)) (items.pieces.flatMap Piece.bare ++ rest) := by
  cases items with
  | last item extra =>
    rw [Items.pieces, flatMap_bare_append]
    exact item.outcome_first outer (ends_extra extra hr)
  | more item afterComma others =>
    rw [Items.pieces, flatMap_bare_append]
    exact item.outcome_first outer (ends_mark .comma _)

theorem Members.outcome_first (members : Members) (outer : List Frame) (rest : List Char) :
    outcome (.wantsFirstKey outer) (members.pieces.flatMap Piece.bare ++ rest) =
      outcome (.wantsKey [] outer) (members.pieces.flatMap Piece.bare ++ rest) := by
  cases members with
  | last key afterKey afterColon value extra =>
    rw [Members.pieces, flatMap_bare_cons, Piece.bare, outcome_text, outcome_text]
    rfl
  | more key afterKey afterColon value afterComma others =>
    rw [Members.pieces, flatMap_bare_cons, Piece.bare, outcome_text, outcome_text]
    rfl

section Steps

variable (outer : List Frame) (rest : List Char)

theorem outcome_openArray :
    outcome (.wantsValue outer) (Mark.openArray.char :: rest) =
      outcome (.wantsFirstItem outer) rest :=
  outcome_mark _ .openArray rest

theorem outcome_emptyArray :
    outcome (.wantsFirstItem outer) (Mark.closeArray.char :: rest) =
      outcome (.close (.array []) outer) rest :=
  outcome_mark _ .closeArray rest

theorem outcome_comma_array (found : List Value) :
    outcome (.afterItem found outer) (Mark.comma.char :: rest) =
      outcome (.wantsValue (.items found :: outer)) rest :=
  outcome_mark _ .comma rest

theorem outcome_closeArray (found : List Value) :
    outcome (.afterItem found outer) (Mark.closeArray.char :: rest) =
      outcome (.close (.array found.reverse) outer) rest :=
  outcome_mark _ .closeArray rest

theorem outcome_openObject :
    outcome (.wantsValue outer) (Mark.openObject.char :: rest) =
      outcome (.wantsFirstKey outer) rest :=
  outcome_mark _ .openObject rest

theorem outcome_emptyObject :
    outcome (.wantsFirstKey outer) (Mark.closeObject.char :: rest) =
      outcome (.close (.object []) outer) rest :=
  outcome_mark _ .closeObject rest

theorem outcome_comma_object (found : Entries Value) :
    outcome (.afterMember found outer) (Mark.comma.char :: rest) =
      outcome (.wantsKey found outer) rest :=
  outcome_mark _ .comma rest

theorem outcome_closeObject (found : Entries Value) :
    outcome (.afterMember found outer) (Mark.closeObject.char :: rest) =
      outcome (.close (.object found) outer) rest :=
  outcome_mark _ .closeObject rest

theorem outcome_key (found : Entries Value) (key : Literal) (afterKey afterColon : Gap) :
    outcome (.wantsKey found outer)
        (key.written ++ ((Piece.gap afterKey).flatMap Piece.bare ++ Mark.colon.char ::
          ((Piece.gap afterColon).flatMap Piece.bare ++ rest))) =
      outcome (.wantsValue (.member found key.text :: outer)) rest := by
  have hk := outcome_text (.wantsKey found outer) key
    ((Piece.gap afterKey).flatMap Piece.bare ++ Mark.colon.char ::
      ((Piece.gap afterColon).flatMap Piece.bare ++ rest))
  have hc := outcome_mark (.wantsColon found key.text outer) .colon
    ((Piece.gap afterColon).flatMap Piece.bare ++ rest)
  refine hk.trans ?_
  change outcome (.wantsColon found key.text outer) _ = _
  rw [outcome_gap]
  refine hc.trans ?_
  change outcome (.wantsValue (.member found key.text :: outer)) _ = _
  rw [outcome_gap]

end Steps

mutual

theorem Element.outcome_bare (outer : List Frame) {rest : List Char} (hr : Ends rest) :
    ∀ element : Element,
      outcome (.wantsValue outer) (element.pieces.flatMap Piece.bare ++ rest) =
        element.value >>= fun value => outcome (.close value outer) rest
  | .scalar scalar after => by
    have hs := outcome_scalar scalar outer (ends_gap after hr)
    simpa only [Element.pieces, flatMap_bare_cons, Piece.bare, Element.value, outcome_gap] using hs
  | .text literal after => by
    rw [Element.pieces, flatMap_bare_cons, Piece.bare, outcome_text]
    exact outcome_gap _ after rest
  | .emptyArray inside after => by
    rw [Element.pieces, flatMap_bare_mark, flatMap_bare_append, flatMap_bare_mark,
      outcome_openArray, outcome_gap, outcome_emptyArray, outcome_gap]
    rfl
  | .array inside items after => by
    have hi := Items.outcome_bare [] outer ((Piece.gap after).flatMap Piece.bare ++ rest) items
    rw [Element.pieces, flatMap_bare_mark, flatMap_bare_append, flatMap_bare_append,
      flatMap_bare_mark, outcome_openArray, outcome_gap,
      items.outcome_first outer (ends_mark .closeArray _)]
    refine hi.trans ?_
    simp [Element.value]
  | .emptyObject inside after => by
    rw [Element.pieces, flatMap_bare_mark, flatMap_bare_append, flatMap_bare_mark,
      outcome_openObject, outcome_gap, outcome_emptyObject, outcome_gap]
    rfl
  | .object inside members after => by
    have hm := Members.outcome_bare [] outer ((Piece.gap after).flatMap Piece.bare ++ rest) members
    rw [Element.pieces, flatMap_bare_mark, flatMap_bare_append, flatMap_bare_append,
      flatMap_bare_mark, outcome_openObject, outcome_gap, members.outcome_first outer]
    refine hm.trans ?_
    simp [Element.value, Entries.ofList]

/-- The items of an array up to the bracket, behind those already found. -/
theorem Items.outcome_bare (found : List Value) (outer : List Frame) (rest : List Char) :
    ∀ items : Items,
      outcome (.wantsValue (.items found :: outer))
          (items.pieces.flatMap Piece.bare ++ Mark.closeArray.char :: rest) =
        items.values >>= fun values =>
          outcome (.close (.array (found.reverse ++ values)) outer) rest
  | .last item extra => by
    have hi := Element.outcome_bare (.items found :: outer)
      (ends_extra extra (ends_mark .closeArray rest)) item
    rw [Items.pieces, flatMap_bare_append, hi, Items.values]
    simp only [Reading.close, outcome_extra, outcome_closeArray, bind_assoc, pure_bind,
      List.reverse_cons]
  | .more item afterComma others => by
    have hi := Element.outcome_bare (.items found :: outer) (ends_mark .comma
      ((Piece.gap afterComma).flatMap Piece.bare ++
        (others.pieces.flatMap Piece.bare ++ Mark.closeArray.char :: rest))) item
    have ho := fun value => Items.outcome_bare (value :: found) outer rest others
    rw [Items.pieces, flatMap_bare_append, flatMap_bare_mark, flatMap_bare_append, hi,
      Items.values]
    simp only [Reading.close, outcome_comma_array, outcome_gap, ho, bind_assoc, pure_bind,
      List.reverse_cons, List.append_assoc, List.singleton_append]

/-- The members of an object up to the bracket, behind those already found. -/
theorem Members.outcome_bare (found : Entries Value) (outer : List Frame) (rest : List Char) :
    ∀ members : Members,
      outcome (.wantsKey found outer)
          (members.pieces.flatMap Piece.bare ++ Mark.closeObject.char :: rest) =
        members.entries >>= fun entries => outcome (.close (.object
          (entries.foldl (fun acc entry => Entries.set entry.1 entry.2 acc) found)) outer) rest
  | .last key afterKey afterColon value extra => by
    have hv := Element.outcome_bare (.member found key.text :: outer)
      (ends_extra extra (ends_mark .closeObject rest)) value
    rw [Members.pieces, flatMap_bare_cons, Piece.bare, flatMap_bare_append, flatMap_bare_mark,
      flatMap_bare_append, outcome_key, flatMap_bare_append, hv, Members.entries]
    simp only [Reading.close, outcome_extra, outcome_closeObject, bind_assoc, pure_bind,
      List.foldl_cons, List.foldl_nil]
  | .more key afterKey afterColon value afterComma others => by
    have hv := Element.outcome_bare (.member found key.text :: outer) (ends_mark .comma
      ((Piece.gap afterComma).flatMap Piece.bare ++
        (others.pieces.flatMap Piece.bare ++ Mark.closeObject.char :: rest))) value
    have ho := fun found => Members.outcome_bare found outer rest others
    rw [Members.pieces, flatMap_bare_cons, Piece.bare, flatMap_bare_append, flatMap_bare_mark,
      flatMap_bare_append, outcome_key, flatMap_bare_append, flatMap_bare_mark,
      flatMap_bare_append, hv, Members.entries]
    simp only [Reading.close, outcome_comma_object, outcome_gap, ho, bind_assoc, pure_bind,
      List.foldl_cons]

end

theorem read_eq_outcome {text : List Char} (ht : text.head? ≠ some '\uFEFF') :
    (read text).mapError ReadError.fault = outcome (.wantsValue []) text := by
  have hl : ∀ found : Except Misread Value,
      (found.mapError (ReadError.locate text)).mapError ReadError.fault =
        found.mapError Misread.fault := by
    rintro (misread | value) <;> rfl
  unfold read
  split
  · simp at ht
  · exact hl _

theorem Document.head?_bare (document : Document) : document.bare.head? ≠ some '\uFEFF' := by
  intro h
  have hg := isJsonSpace_gap document.before
  rw [Document.bare, Document.pieces, List.flatMap_append] at h
  generalize (Piece.gap document.before).flatMap Piece.bare = blanks at hg h
  cases blanks with
  | cons c blanks =>
    have hc := hg c (by simp)
    obtain rfl : c = '\uFEFF' := by simpa using h
    revert hc
    decide
  | nil =>
    rw [List.nil_append] at h
    cases hr : document.root with
    | scalar scalar after =>
      obtain ⟨c, chars, hw⟩ := List.exists_cons_of_ne_nil scalar.written_ne_nil
      have hc := scalar.isScalarChar c (by simp [hw])
      obtain rfl : c = '\uFEFF' := by simpa [hr, Element.pieces, Piece.bare, hw] using h
      revert hc
      decide
    | text literal after => simp [hr, Element.pieces, Piece.bare, Literal.written] at h
    | emptyArray inside after => simp [hr, Element.pieces, Piece.bare, Mark.char] at h
    | array inside items after => simp [hr, Element.pieces, Piece.bare, Mark.char] at h
    | emptyObject inside after => simp [hr, Element.pieces, Piece.bare, Mark.char] at h
    | object inside members after => simp [hr, Element.pieces, Piece.bare, Mark.char] at h

/-- The bare text of a document reads as its value. -/
theorem Document.read_bare (document : Document) :
    (read document.bare).mapError ReadError.fault = document.value := by
  have he : Ends [] := by simp [Ends]
  have hr := Element.outcome_bare [] he document.root
  have hd : ∀ value, outcome (.close value []) [] = .ok value := by
    intro value
    rw [outcome, tokens_eq_of_dropWhile]
    rfl
  rw [read_eq_outcome document.head?_bare, Document.bare, Document.pieces, List.flatMap_append,
    outcome_gap]
  rw [List.append_nil] at hr
  rw [hr, Document.value]
  cases document.root.value with
  | ok value => exact hd value
  | error fault => rfl

end ImportAlias.Json
