import ImportAlias.Json.Comments
import ImportAlias.Proofs.Document

/-!
# Comments and extra commas are deleted

Stripping takes a document to its bare text. Each pass meets the pieces of the
document one after the other: the first one deletes comments, and the second one
those commas that a closing bracket follows, which in a document are the extra
ones. Nothing in a text literal looks like the end of that literal to either
pass, so both stay aligned with the pieces.
-/

namespace ImportAlias.Json

theorem removeComments_cons {c : Char} (hq : c ≠ '"') (hs : c ≠ '/') (rest : List Char) :
    removeComments (c :: rest) = c :: removeComments rest := by
  rw [removeComments] <;> simp [hq, hs]

theorem removeComments_append {chars : List Char} (h : ∀ c ∈ chars, c ≠ '"' ∧ c ≠ '/')
    (rest : List Char) : removeComments (chars ++ rest) = chars ++ removeComments rest := by
  induction chars with
  | nil => rfl
  | cons c chars ih =>
    have hc := h c (by simp)
    rw [List.cons_append, removeComments_cons hc.1 hc.2, ih fun d hd => h d (by simp [hd]),
      List.cons_append]

theorem removeTrailingCommas_cons {c : Char} (hq : c ≠ '"') (hc : c ≠ ',') (rest : List Char) :
    removeTrailingCommas (c :: rest) = c :: removeTrailingCommas rest := by
  rw [removeTrailingCommas] <;> simp [hq, hc]

theorem removeTrailingCommas_append {chars : List Char} (h : ∀ c ∈ chars, c ≠ '"' ∧ c ≠ ',')
    (rest : List Char) :
    removeTrailingCommas (chars ++ rest) = chars ++ removeTrailingCommas rest := by
  induction chars with
  | nil => rfl
  | cons c chars ih =>
    have hc := h c (by simp)
    rw [List.cons_append, removeTrailingCommas_cons hc.1 hc.2, ih fun d hd => h d (by simp [hd]),
      List.cons_append]

theorem literalEnd?_cons_of_ne {c : Char} {acrossLines : Bool} (hq : c ≠ '"') (hb : c ≠ '\\')
    (rest : List Char) : literalEnd? acrossLines (c :: rest) =
      (literalEnd? acrossLines rest).map fun (literal, rest) => (c :: literal, rest) := by
  rw [literalEnd?] <;> simp [hq, hb]

theorem literalEnd?_escape {c : Char} {acrossLines : Bool} (hc : c ≠ '\n') (rest : List Char) :
    literalEnd? acrossLines ('\\' :: c :: rest) =
      (literalEnd? acrossLines rest).map fun (literal, rest) => ('\\' :: c :: literal, rest) := by
  rw [literalEnd?]
  simp [hc]

theorem ne_lineBreak_of_escaped? {c stands : Char} (h : escaped? c = some stands) : c ≠ '\n' := by
  rintro rfl
  simp [escaped?] at h

theorem hexDigit_ne {c : Char} {n : Nat} (h : hexDigit? c = some n) : c ≠ '"' ∧ c ≠ '\\' := by
  constructor <;> rintro rfl <;> simp [hexDigit?] at h

theorem hexDigits_of_hexNumber? {a b c d : Char} {n : Nat} (h : hexNumber? [a, b, c, d] = some n) :
    ∀ x ∈ [a, b, c, d], ∃ m, hexDigit? x = some m := by
  simp only [hexNumber?, List.foldl_cons, List.foldl_nil, Option.bind_eq_bind, Option.pure_def,
    Option.bind_eq_some_iff] at h
  obtain ⟨-, ⟨-, ⟨-, ⟨-, -, i, ha, -⟩, j, hb, -⟩, k, hc, -⟩, l, hd, -⟩ := h
  simp only [List.forall_mem_cons]
  exact ⟨⟨i, ha⟩, ⟨j, hb⟩, ⟨k, hc⟩, ⟨l, hd⟩, by simp⟩

theorem literalEnd?_letter (letter : Letter) (acrossLines : Bool) (rest : List Char) :
    literalEnd? acrossLines (letter.written ++ rest) =
      (literalEnd? acrossLines rest).map fun (literal, rest) =>
        (letter.written ++ literal, rest) := by
  cases letter with
  | plain c hq hb hc => exact literalEnd?_cons_of_ne hq hb rest
  | escape c stands hc => exact literalEnd?_escape (ne_lineBreak_of_escaped? hc) rest
  | code a b c d unit hu =>
    have hd : ∀ x ∈ [a, b, c, d], x ≠ '"' ∧ x ≠ '\\' := by
      intro x hx
      obtain ⟨m, hm⟩ := hexDigits_of_hexNumber? hu x hx
      exact hexDigit_ne hm
    simp only [List.forall_mem_cons] at hd
    obtain ⟨⟨haq, hab⟩, ⟨hbq, hbb⟩, ⟨hcq, hcb⟩, ⟨hdq, hdb⟩, -⟩ := hd
    simp only [Letter.written, List.cons_append, List.nil_append,
      literalEnd?_escape (show 'u' ≠ '\n' by decide), literalEnd?_cons_of_ne haq hab,
      literalEnd?_cons_of_ne hbq hbb, literalEnd?_cons_of_ne hcq hcb,
      literalEnd?_cons_of_ne hdq hdb, Option.map_map, Function.comp_def]

theorem literalEnd?_letters (letters : List Letter) (acrossLines : Bool) (rest : List Char) :
    literalEnd? acrossLines (letters.flatMap Letter.written ++ '"' :: rest) =
      some (letters.flatMap Letter.written ++ ['"'], rest) := by
  induction letters with
  | nil => simp [literalEnd?]
  | cons letter letters ih =>
    rw [List.flatMap_cons, List.append_assoc, literalEnd?_letter, ih]
    simp

theorem blockEnd?_append {body : List Char} (hb : ¬ ['*', '/'] <:+: body) (rest : List Char) :
    blockEnd? (body ++ '*' :: '/' :: rest) = some rest := by
  induction body with
  | nil => rfl
  | cons c body ih =>
    rw [List.infix_cons_iff, not_or] at hb
    rw [List.cons_append, blockEnd?, ih hb.2]
    -- an earlier end would have to begin in the body and take its slash from there
    rintro tail rfl ht
    cases body with
    | nil => simp at ht
    | cons d body =>
      obtain ⟨rfl, -⟩ : d = '/' ∧ _ := by simpa using ht
      exact hb.1 ⟨body, rfl⟩

namespace Piece

/-- What is left of a piece behind the first pass. -/
def uncommented : Piece → List Char
  | .extraComma => [',']
  | piece => piece.bare

end Piece

/-- The characters that numbers and words are written with. -/
def isScalarChar (c : Char) : Bool :=
  c.isAlphanum || c = '+' || c = '-' || c = '.'

theorem ne_of_isScalarChar {c : Char} (h : isScalarChar c = true) :
    c ≠ '"' ∧ c ≠ '/' ∧ c ≠ ',' ∧ c ≠ ']' ∧ c ≠ '}' := by
  refine ⟨?_, ?_, ?_, ?_, ?_⟩ <;> rintro rfl <;> revert h <;> decide

theorem isBlank_of_isScalarChar {c : Char} (h : isScalarChar c = true) :
    Text.isBlank c = false := by
  have hn : c.toNat = 43 ∨ c.toNat = 45 ∨ c.toNat = 46 ∨ 48 ≤ c.toNat ∧ c.toNat < 128 := by
    unfold isScalarChar Char.isAlphanum Char.isAlpha Char.isUpper Char.isLower Char.isDigit at h
    simp only [Bool.or_eq_true, Bool.and_eq_true, decide_eq_true_eq, ge_iff_le,
      UInt32.le_iff_toNat_le] at h
    rcases h with ((((h | h) | h) | rfl) | rfl) | rfl
    iterate 3
      have h : _ ≤ c.toNat ∧ c.toNat ≤ _ := h
      simp only [Char.reduceVal, UInt32.reduceToNat] at h
      omega
    all_goals decide
  simp only [Text.isBlank, Text.blankRanges, List.any_cons, List.any_nil, Bool.or_false,
    Bool.or_eq_false_iff, Bool.and_eq_false_iff, decide_eq_false_iff_not]
  omega

theorem isScalarChar_of_isDigit {c : Char} (h : c.isDigit = true) : isScalarChar c = true := by
  simp [isScalarChar, Char.isAlphanum, h]

theorem Power.isScalarChar (power : Power) : ∀ c ∈ power.written, isScalarChar c = true := by
  intro c hc
  rw [Power.written, List.mem_cons, List.mem_append] at hc
  rcases hc with rfl | hc | hc
  · rcases power.mark_eq with h | h <;> rw [h] <;> decide
  · rcases power.sign_eq with h | h | h <;> simp [h] at hc <;> subst hc <;> decide
  · exact isScalarChar_of_isDigit (power.isDigit c hc)

theorem Number.isScalarChar (number : Number) : ∀ c ∈ number.written, isScalarChar c = true := by
  intro c hc
  simp only [Number.written, List.mem_append] at hc
  rcases hc with hc | hc | hc | hc
  · split at hc
    · obtain rfl : c = '-' := by simpa using hc
      decide
    · simp at hc
  · exact isScalarChar_of_isDigit (number.whole_isDigit c hc)
  · unfold Number.fractionText at hc
    split at hc
    · simp at hc
    · rcases List.mem_cons.mp hc with rfl | hc
      · decide
      · exact isScalarChar_of_isDigit (number.decimals_isDigit c hc)
  · unfold Number.powerText at hc
    cases hp : number.power with
    | none => simp [hp] at hc
    | some power => exact power.isScalarChar c (by simpa [hp] using hc)

theorem Scalar.isScalarChar (scalar : Scalar) : ∀ c ∈ scalar.written, isScalarChar c = true := by
  cases scalar with
  | number number => exact number.isScalarChar
  | word word value hw =>
    simp only [words, List.mem_cons, Prod.mk.injEq, List.not_mem_nil, or_false] at hw
    simp only [Scalar.written]
    rw [← List.all_eq_true]
    rcases hw with ⟨rfl, -⟩ | ⟨rfl, -⟩ | ⟨rfl, -⟩ | ⟨rfl, -⟩ | ⟨rfl, -⟩ | ⟨rfl, -⟩ <;> rfl

theorem Mark.char_ne (mark : Mark) : mark.char ≠ '"' ∧ mark.char ≠ '/' := by
  cases mark <;> decide

theorem dropWhile_line {body : List Char} (hb : '\n' ∉ body) (rest : List Char) :
    (body ++ '\n' :: rest).dropWhile (· ≠ '\n') = '\n' :: rest := by
  rw [List.dropWhile_append_of_pos]
  · simp
  · intro c hc
    simpa using fun e : c = '\n' => hb (e ▸ hc)

theorem dropWhile_ending {body : List Char} (hb : '\n' ∉ body) :
    body.dropWhile (· ≠ '\n') = [] := by
  rw [← List.append_nil body, List.dropWhile_append_of_pos, List.dropWhile_nil]
  intro c hc
  simpa using fun e : c = '\n' => hb (e ▸ hc)

theorem removeComments_piece (piece : Piece) (rest : List Char) :
    removeComments (piece.written ++ rest) = piece.uncommented ++ removeComments rest := by
  cases piece with
  | filler filler =>
    cases filler with
    | blank c hc =>
      refine removeComments_cons ?_ ?_ rest <;> rintro rfl <;> simp [Text.isJsonSpace] at hc
    | block body hb =>
      have he := blockEnd?_append hb rest
      simp only [Piece.written, Filler.written, Piece.uncommented, Piece.bare, Filler.bare,
        List.cons_append, List.append_assoc, List.nil_append]
      rw [removeComments, he]
    | line body hb =>
      simp only [Piece.written, Filler.written, Piece.uncommented, Piece.bare, Filler.bare,
        List.cons_append, List.append_assoc, List.nil_append]
      rw [removeComments, dropWhile_line hb, removeComments_cons (by decide) (by decide)]
  | scalar scalar =>
    refine removeComments_append (fun c hc => ?_) rest
    have hn := ne_of_isScalarChar (scalar.isScalarChar c hc)
    exact ⟨hn.1, hn.2.1⟩
  | text literal =>
    have he := literalEnd?_letters literal true rest
    simp only [Piece.written, Literal.written, Piece.uncommented, Piece.bare, List.cons_append,
      List.append_assoc, List.nil_append]
    rw [removeComments, he]
    simp
  | mark mark => exact removeComments_cons mark.char_ne.1 mark.char_ne.2 rest
  | extraComma => exact removeComments_cons (by decide) (by decide) rest

theorem removeComments_pieces (pieces : List Piece) (rest : List Char) :
    removeComments (pieces.flatMap Piece.written ++ rest) =
      pieces.flatMap Piece.uncommented ++ removeComments rest := by
  induction pieces with
  | nil => rfl
  | cons piece pieces ih =>
    rw [List.flatMap_cons, List.append_assoc, removeComments_piece, ih, List.flatMap_cons,
      List.append_assoc]

namespace Piece

/-- Whether the next token closes an array or object. -/
def closes : List Piece → Bool
  | [] => false
  | .filler _ :: rest => closes rest
  | .mark m :: _ => m.closes
  | _ :: _ => false

/-- Commas stand in front of a closing bracket exactly if they are extra ones. -/
def Placed : List Piece → Prop
  | [] => True
  | .mark .comma :: rest => closes rest = false ∧ Placed rest
  | .extraComma :: rest => closes rest = true ∧ Placed rest
  | _ :: rest => Placed rest

end Piece

theorem closesNext_append {blanks : List Char} (hb : ∀ c ∈ blanks, Text.isBlank c = true)
    (rest : List Char) : closesNext (blanks ++ rest) = closesNext rest := by
  rw [closesNext, List.dropWhile_append_of_pos hb, closesNext]

theorem closesNext_cons {c : Char} (hc : Text.isBlank c = false) (rest : List Char) :
    closesNext (c :: rest) = (c = ']' || c = '}') := by
  rw [closesNext, List.dropWhile_cons_of_neg (by simp [hc])]
  split
  · rename_i h
    obtain ⟨rfl, -⟩ := List.cons.inj h
    rfl
  · rename_i h
    obtain ⟨rfl, -⟩ := List.cons.inj h
    rfl
  · rename_i h₁ h₂
    have h₁ : c ≠ ']' := fun e => h₁ rest (by rw [e])
    have h₂ : c ≠ '}' := fun e => h₂ rest (by rw [e])
    simp [h₁, h₂]

theorem Filler.isBlank (filler : Filler) : ∀ c ∈ filler.bare, Text.isBlank c = true := by
  cases filler with
  | blank c hc => simpa [Filler.bare] using Text.isBlank_of_isJsonSpace hc
  | block => simp [Filler.bare]
  | line => simp only [Filler.bare, List.mem_singleton, forall_eq]; decide

theorem Scalar.written_ne_nil (scalar : Scalar) : scalar.written ≠ [] := by
  cases scalar with
  | number number => simp [Scalar.written, Number.written, number.whole_ne]
  | word word value hw =>
    simp only [words, List.mem_cons, Prod.mk.injEq, List.not_mem_nil, or_false] at hw
    simp only [Scalar.written]
    rcases hw with ⟨rfl, -⟩ | ⟨rfl, -⟩ | ⟨rfl, -⟩ | ⟨rfl, -⟩ | ⟨rfl, -⟩ | ⟨rfl, -⟩ <;> decide

/-- Looking for a bracket in the text finds the next token of the document. -/
theorem closesNext_pieces (pieces : List Piece) :
    closesNext (pieces.flatMap Piece.uncommented) = Piece.closes pieces := by
  induction pieces with
  | nil => rfl
  | cons piece pieces ih =>
    rw [List.flatMap_cons]
    cases piece with
    | filler filler => exact (closesNext_append filler.isBlank _).trans ih
    | scalar scalar =>
      obtain ⟨c, chars, hw⟩ := List.exists_cons_of_ne_nil scalar.written_ne_nil
      have hc := scalar.isScalarChar c (by simp [hw])
      have hn := ne_of_isScalarChar hc
      simp only [Piece.uncommented, Piece.bare, hw, List.cons_append, Piece.closes]
      rw [closesNext_cons (isBlank_of_isScalarChar hc)]
      simp [hn]
    | text literal => exact closesNext_cons (by decide) _
    | mark mark =>
      cases mark <;> exact closesNext_cons (by decide) _
    | extraComma => exact closesNext_cons (by decide) _

theorem removeTrailingCommas_pieces {pieces : List Piece} (h : Piece.Placed pieces) :
    removeTrailingCommas (pieces.flatMap Piece.uncommented) = pieces.flatMap Piece.bare := by
  induction pieces with
  | nil => simp [removeTrailingCommas]
  | cons piece pieces ih =>
    have hn := closesNext_pieces pieces
    rw [List.flatMap_cons, List.flatMap_cons]
    cases piece with
    | filler filler =>
      rw [← ih h]
      refine removeTrailingCommas_append (fun c hc => ?_) _
      have hb := filler.isBlank c hc
      constructor <;> rintro rfl <;> revert hb <;> decide
    | scalar scalar =>
      rw [← ih h]
      refine removeTrailingCommas_append (fun c hc => ?_) _
      have hn := ne_of_isScalarChar (scalar.isScalarChar c hc)
      exact ⟨hn.1, hn.2.2.1⟩
    | text literal =>
      have he := literalEnd?_letters literal false (pieces.flatMap Piece.uncommented)
      simp only [Piece.uncommented, Piece.bare, Literal.written, List.cons_append,
        List.append_assoc, List.nil_append]
      rw [removeTrailingCommas, he, ← ih h]
      simp
    | mark mark =>
      cases mark with
      | comma =>
        have hc : closesNext (pieces.flatMap Piece.uncommented) = false := hn.trans h.1
        simp only [Piece.uncommented, Piece.bare, Mark.char, List.cons_append, List.nil_append]
        rw [removeTrailingCommas, if_neg (by simp [hc]), ih h.2]
      | _ =>
        rw [← ih h]
        exact removeTrailingCommas_cons (by decide) (by decide) _
    | extraComma =>
      have hc : closesNext (pieces.flatMap Piece.uncommented) = true := hn.trans h.1
      simp only [Piece.uncommented, Piece.bare, List.cons_append, List.nil_append]
      rw [removeTrailingCommas, if_pos hc, ih h.2]

namespace Piece

@[simp] theorem closes_gap (fillers : Gap) (rest : List Piece) :
    closes (gap fillers ++ rest) = closes rest := by
  induction fillers with
  | nil => rfl
  | cons filler fillers ih => exact ih

@[simp] theorem placed_gap (fillers : Gap) (rest : List Piece) :
    Placed (gap fillers ++ rest) ↔ Placed rest := by
  induction fillers with
  | nil => rfl
  | cons filler fillers ih => exact ih

theorem placed_extra (fillers : Option Gap) {rest : List Piece} (hc : closes rest = true)
    (h : Placed rest) : Placed (extra fillers ++ rest) := by
  cases fillers with
  | none => exact h
  | some fillers => exact ⟨by simpa using hc, by simpa using h⟩

end Piece

open Piece (closes Placed gap placed_extra)

theorem Element.closes_pieces (element : Element) (rest : List Piece) :
    closes (element.pieces ++ rest) = false := by
  cases element <;> rfl

theorem Items.closes_pieces (items : Items) (rest : List Piece) :
    closes (items.pieces ++ rest) = false := by
  cases items with
  | last item => simpa [Items.pieces] using item.closes_pieces _
  | more item => simpa [Items.pieces] using item.closes_pieces _

theorem Members.closes_pieces (members : Members) (rest : List Piece) :
    closes (members.pieces ++ rest) = false := by
  cases members <;> rfl

mutual

theorem Element.placed_pieces {rest : List Piece} (h : Placed rest) :
    ∀ element : Element, Placed (element.pieces ++ rest)
  | .scalar scalar after => by simpa [Element.pieces, Placed] using h
  | .text literal after => by simpa [Element.pieces, Placed] using h
  | .emptyArray inside after => by simpa [Element.pieces, Placed] using h
  | .array inside items after => by
    have hc : Placed (.mark .closeArray :: (gap after ++ rest)) := by simpa [Placed] using h
    have hi := Items.placed_pieces rfl hc items
    simpa [Element.pieces, Placed] using hi
  | .emptyObject inside after => by simpa [Element.pieces, Placed] using h
  | .object inside members after => by
    have hc : Placed (.mark .closeObject :: (gap after ++ rest)) := by simpa [Placed] using h
    have hm := Members.placed_pieces rfl hc members
    simpa [Element.pieces, Placed] using hm

theorem Items.placed_pieces {rest : List Piece} (hc : closes rest = true) (h : Placed rest) :
    ∀ items : Items, Placed (items.pieces ++ rest)
  | .last item extra => by
    simpa [Items.pieces] using item.placed_pieces (placed_extra extra hc h)
  | .more item afterComma others => by
    have ho := Items.placed_pieces hc h others
    have hm : Placed (.mark .comma :: (gap afterComma ++ (others.pieces ++ rest))) :=
      ⟨by simpa using others.closes_pieces rest, by simpa using ho⟩
    simpa [Items.pieces] using item.placed_pieces hm

theorem Members.placed_pieces {rest : List Piece} (hc : closes rest = true) (h : Placed rest) :
    ∀ members : Members, Placed (members.pieces ++ rest)
  | .last key afterKey afterColon value extra => by
    simpa [Members.pieces, Placed] using value.placed_pieces (placed_extra extra hc h)
  | .more key afterKey afterColon value afterComma others => by
    have ho := Members.placed_pieces hc h others
    have hm : Placed (.mark .comma :: (gap afterComma ++ (others.pieces ++ rest))) :=
      ⟨by simpa using others.closes_pieces rest, by simpa using ho⟩
    simpa [Members.pieces, Placed] using value.placed_pieces hm

end

theorem Document.placed_pieces (document : Document) : Placed document.pieces := by
  have hn : Placed [] := trivial
  simpa [Document.pieces] using document.root.placed_pieces hn

theorem removeComments_ending (document : Document) : removeComments document.endingText = [] := by
  unfold Document.endingText
  cases document.ending with
  | none => simp [removeComments]
  | some body =>
    simp only [Option.elim_some]
    rw [removeComments, dropWhile_ending body.property, removeComments]

theorem stripComments_written (document : Document) :
    stripComments document.written = document.bare := by
  rw [stripComments, Document.written, removeComments_pieces, removeComments_ending,
    List.append_nil, removeTrailingCommas_pieces document.placed_pieces, Document.bare]

end ImportAlias.Json
