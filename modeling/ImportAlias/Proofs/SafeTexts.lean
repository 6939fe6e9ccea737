import ImportAlias.Proofs.DocumentReading

/-!
# Texts that are safe to strip

Deleting a comment can join what stood on its two sides, deleting a comma can
leave brackets with nothing in them, and a quote that nothing closes hides what
comes behind it. A text is safe when none of this happens. Nothing is said about
its tokens otherwise, and most safe texts cannot be read. Documents are safe: a
number or word is followed by a bracket or a comma, and no comma follows an opening
bracket.
-/

namespace ImportAlias.Json

/-- A comma comes next, behind white space. -/
def LeadsWithComma (text : List Char) : Prop :=
  (text.dropWhile Text.isBlank).head? = some ','

/-- All quotes and comments of a text are closed, a number or word that ends in front of comments
also ends when they are deleted, and no comma is the first thing behind an opening bracket. -/
inductive Safe : List Char → Prop
  | nil : Safe []
  | literal {literal tail rest : List Char} (hl : literalEnd? true rest = some (literal, tail))
      (ht : Safe tail) : Safe ('"' :: rest)
  | line {rest : List Char} (ht : Safe (rest.dropWhile (· ≠ '\n'))) : Safe ('/' :: '/' :: rest)
  | block {rest tail : List Char} (hb : blockEnd? rest = some tail) (ht : Safe tail) :
    Safe ('/' :: '*' :: rest)
  | char {c : Char} {rest : List Char} (hq : c ≠ '"') (hs : c ≠ '/')
      (hj : isScalarChar c = true → Ends rest → Ends (removeComments rest))
      (ho : c = '[' ∨ c = '{' → ¬ LeadsWithComma (removeComments rest)) (ht : Safe rest) :
    Safe (c :: rest)

namespace Piece

/-- The next piece that is no filler. -/
def next? : List Piece → Option Piece
  | [] => none
  | .filler _ :: rest => next? rest
  | piece :: _ => some piece

/-- The next token is a number or a word. -/
def NextScalar (pieces : List Piece) : Prop :=
  ∃ s, next? pieces = some (.scalar s)

/-- The next token is a comma. -/
def NextComma (pieces : List Piece) : Prop :=
  next? pieces = some (.mark .comma) ∨ next? pieces = some .extraComma

/-- No two numbers or words follow each other, and no comma follows an opening bracket. -/
def Apart : List Piece → Prop
  | [] => True
  | .scalar _ :: rest => ¬ NextScalar rest ∧ Apart rest
  | .mark .openArray :: rest => ¬ NextComma rest ∧ Apart rest
  | .mark .openObject :: rest => ¬ NextComma rest ∧ Apart rest
  | _ :: rest => Apart rest

@[simp] theorem next?_gap (fillers : Gap) (rest : List Piece) :
    next? (gap fillers ++ rest) = next? rest := by
  induction fillers with
  | nil => rfl
  | cons filler fillers ih => exact ih

@[simp] theorem apart_gap (fillers : Gap) (rest : List Piece) :
    Apart (gap fillers ++ rest) ↔ Apart rest := by
  induction fillers with
  | nil => rfl
  | cons filler fillers ih => exact ih

@[simp] theorem nextScalar_gap (fillers : Gap) (rest : List Piece) :
    NextScalar (gap fillers ++ rest) ↔ NextScalar rest := by
  rw [NextScalar, next?_gap, NextScalar]

@[simp] theorem nextComma_gap (fillers : Gap) (rest : List Piece) :
    NextComma (gap fillers ++ rest) ↔ NextComma rest := by
  rw [NextComma, next?_gap, NextComma]

theorem not_nextScalar_mark (m : Mark) (rest : List Piece) : ¬ NextScalar (.mark m :: rest) := by
  simp [NextScalar, next?]

theorem apart_extra (fillers : Option Gap) {rest : List Piece} (h : Apart rest) :
    Apart (extra fillers ++ rest) := by
  cases fillers with
  | none => exact h
  | some fillers => simpa [extra, Apart] using h

theorem not_nextScalar_extra (fillers : Option Gap) {rest : List Piece} (h : ¬ NextScalar rest) :
    ¬ NextScalar (extra fillers ++ rest) := by
  cases fillers with
  | none => exact h
  | some fillers => simp [extra, NextScalar, next?]

end Piece

open Piece (Apart NextScalar NextComma next? gap apart_extra not_nextScalar_extra)

theorem Element.not_nextComma (element : Element) (rest : List Piece) :
    ¬ NextComma (element.pieces ++ rest) := by
  cases element <;> simp [Element.pieces, NextComma, next?]

theorem Items.not_nextComma (items : Items) (rest : List Piece) :
    ¬ NextComma (items.pieces ++ rest) := by
  cases items with
  | last item => simpa [Items.pieces] using item.not_nextComma _
  | more item => simpa [Items.pieces] using item.not_nextComma _

theorem Members.not_nextComma (members : Members) (rest : List Piece) :
    ¬ NextComma (members.pieces ++ rest) := by
  cases members <;> simp [Members.pieces, NextComma, next?]

mutual

theorem Element.apart_pieces {rest : List Piece} (h : Apart rest) (hn : ¬ NextScalar rest) :
    ∀ element : Element, Apart (element.pieces ++ rest)
  | .scalar scalar after => by simpa [Element.pieces, Apart] using ⟨hn, h⟩
  | .text literal after => by simpa [Element.pieces, Apart] using h
  | .emptyArray inside after => by simpa [Element.pieces, Apart, NextComma, next?] using h
  | .array inside items after => by
    have hc : Apart (.mark .closeArray :: (gap after ++ rest)) := by simpa [Apart] using h
    have hi := Items.apart_pieces hc (Piece.not_nextScalar_mark _ _) items
    have hf := items.not_nextComma (.mark .closeArray :: (gap after ++ rest))
    simpa [Element.pieces, Apart] using ⟨hf, hi⟩
  | .emptyObject inside after => by simpa [Element.pieces, Apart, NextComma, next?] using h
  | .object inside members after => by
    have hc : Apart (.mark .closeObject :: (gap after ++ rest)) := by simpa [Apart] using h
    have hm := Members.apart_pieces hc (Piece.not_nextScalar_mark _ _) members
    have hf := members.not_nextComma (.mark .closeObject :: (gap after ++ rest))
    simpa [Element.pieces, Apart] using ⟨hf, hm⟩

theorem Items.apart_pieces {rest : List Piece} (h : Apart rest) (hn : ¬ NextScalar rest) :
    ∀ items : Items, Apart (items.pieces ++ rest)
  | .last item extra => by
    simpa [Items.pieces] using
      item.apart_pieces (apart_extra extra h) (not_nextScalar_extra extra hn)
  | .more item afterComma others => by
    have ho := Items.apart_pieces h hn others
    have hm : Apart (.mark .comma :: (gap afterComma ++ (others.pieces ++ rest))) := by
      simpa [Apart] using ho
    simpa [Items.pieces] using item.apart_pieces hm (Piece.not_nextScalar_mark _ _)

theorem Members.apart_pieces {rest : List Piece} (h : Apart rest) (hn : ¬ NextScalar rest) :
    ∀ members : Members, Apart (members.pieces ++ rest)
  | .last key afterKey afterColon value extra => by
    simpa [Members.pieces, Apart] using
      value.apart_pieces (apart_extra extra h) (not_nextScalar_extra extra hn)
  | .more key afterKey afterColon value afterComma others => by
    have ho := Members.apart_pieces h hn others
    have hm : Apart (.mark .comma :: (gap afterComma ++ (others.pieces ++ rest))) := by
      simpa [Apart] using ho
    simpa [Members.pieces, Apart] using value.apart_pieces hm (Piece.not_nextScalar_mark _ _)

end

theorem Document.apart_pieces (document : Document) : Apart document.pieces := by
  have ha : Apart [] := trivial
  have hn : ¬ NextScalar [] := by simp [NextScalar, next?]
  simpa [Document.pieces] using document.root.apart_pieces ha hn

theorem ends_of_not_nextScalar {pieces : List Piece} (h : ¬ NextScalar pieces) :
    Ends (pieces.flatMap Piece.uncommented) := by
  induction pieces with
  | nil => simp [Ends]
  | cons piece pieces ih =>
    rw [List.flatMap_cons]
    cases piece with
    | filler filler => exact ends_append_of_space filler.isJsonSpace (ih h)
    | scalar scalar => exact absurd ⟨scalar, rfl⟩ h
    | mark mark => exact ends_mark mark _
    | text literal =>
      intro c hc
      obtain rfl : '"' = c := by simpa [Piece.uncommented, Piece.bare, Literal.written] using hc
      decide
    | extraComma => exact ends_mark .comma _

theorem leadsWithComma_append {blanks : List Char} (hb : ∀ c ∈ blanks, Text.isBlank c = true)
    (rest : List Char) : LeadsWithComma (blanks ++ rest) ↔ LeadsWithComma rest := by
  rw [LeadsWithComma, List.dropWhile_append_of_pos hb, LeadsWithComma]

theorem leadsWithComma_cons {c : Char} (hc : Text.isBlank c = false) (rest : List Char) :
    LeadsWithComma (c :: rest) ↔ c = ',' := by
  rw [LeadsWithComma, List.dropWhile_cons_of_neg (by simp [hc])]
  simp

theorem not_leadsWithComma {pieces : List Piece} (h : ¬ NextComma pieces) :
    ¬ LeadsWithComma (pieces.flatMap Piece.uncommented) := by
  induction pieces with
  | nil => simp [LeadsWithComma]
  | cons piece pieces ih =>
    rw [List.flatMap_cons]
    cases piece with
    | filler filler => exact mt (leadsWithComma_append filler.isBlank _).mp (ih h)
    | scalar scalar =>
      obtain ⟨c, chars, hw⟩ := List.exists_cons_of_ne_nil scalar.written_ne_nil
      have hc := scalar.isScalarChar c (by simp [hw])
      simp only [Piece.uncommented, Piece.bare, hw, List.cons_append]
      rw [leadsWithComma_cons (isBlank_of_isScalarChar hc)]
      exact (ne_of_isScalarChar hc).2.2.1
    | text literal =>
      have hq : Text.isBlank '"' = false := by decide
      exact mt (leadsWithComma_cons hq _).mp (by decide)
    | mark mark =>
      have hb : Text.isBlank mark.char = false := by cases mark <;> decide
      apply mt (leadsWithComma_cons hb _).mp
      cases mark with
      | comma => exact absurd (.inl rfl) h
      | _ => decide
    | extraComma => exact absurd (.inr rfl) h

theorem safe_scalar {chars rest : List Char} (hc : ∀ c ∈ chars, isScalarChar c = true)
    (he : Ends (removeComments rest)) (hr : Safe rest) : Safe (chars ++ rest) := by
  induction chars with
  | nil => exact hr
  | cons c chars ih =>
    obtain ⟨hfirst, hothers⟩ := List.forall_mem_cons.mp hc
    have hn := ne_of_isScalarChar hfirst
    apply Safe.char hn.1 hn.2.1
    · intro _ hends
      cases chars with
      | nil => exact he
      | cons d chars =>
        -- the scalar goes on, so it does not end here
        have hd := hothers d List.mem_cons_self
        rw [hends d rfl] at hd
        cases hd
    · rintro (rfl | rfl) <;> cases hfirst
    · exact ih hothers

theorem safe_cons {c : Char} (hq : c ≠ '"') (hs : c ≠ '/') (hc : isScalarChar c = false)
    (ho : ¬ (c = '[' ∨ c = '{')) {rest : List Char} (hr : Safe rest) : Safe (c :: rest) := by
  apply Safe.char hq hs _ _ hr
  · intro h
    rw [hc] at h
    cases h
  · exact fun h => absurd h ho

theorem safe_space {c : Char} (hc : Text.isJsonSpace c = true) {rest : List Char}
    (hr : Safe rest) : Safe (c :: rest) := by
  simp only [Text.isJsonSpace, Bool.or_eq_true, decide_eq_true_eq] at hc
  rcases hc with ((rfl | rfl) | rfl) | rfl <;>
    exact safe_cons (by decide) (by decide) (by decide) (by decide) hr

theorem safe_filler (filler : Filler) {rest : List Char} (hr : Safe rest) :
    Safe (filler.written ++ rest) := by
  cases filler with
  | blank c hc => exact safe_space hc hr
  | block body hb =>
    simp only [Filler.written, List.cons_append, List.append_assoc, List.nil_append]
    exact .block (blockEnd?_append hb rest) hr
  | line body hb =>
    simp only [Filler.written, List.cons_append, List.append_assoc, List.nil_append]
    apply Safe.line
    rw [dropWhile_line hb]
    exact safe_space (by decide) hr

/-- Pieces that stand apart are safe, in front of a text that is a comment. -/
theorem safe_pieces {pieces : List Piece} (h : Apart pieces) {rest : List Char}
    (hn : removeComments rest = []) (hr : Safe rest) :
    Safe (pieces.flatMap Piece.written ++ rest) := by
  induction pieces with
  | nil => exact hr
  | cons piece pieces ih =>
    have hstripped : removeComments (pieces.flatMap Piece.written ++ rest) =
        pieces.flatMap Piece.uncommented := by
      rw [removeComments_pieces, hn, List.append_nil]
    rw [List.flatMap_cons, List.append_assoc]
    cases piece with
    | filler filler => exact safe_filler filler (ih h)
    | scalar scalar =>
      apply safe_scalar scalar.isScalarChar _ (ih h.2)
      rw [hstripped]
      exact ends_of_not_nextScalar h.1
    | text literal =>
      have hl := literalEnd?_letters literal true (pieces.flatMap Piece.written ++ rest)
      simp only [Piece.written, Literal.written, List.cons_append, List.append_assoc,
        List.nil_append]
      exact .literal hl (ih h)
    | mark mark =>
      have ho : ¬ NextComma pieces → mark.char = '[' ∨ mark.char = '{' →
          ¬ LeadsWithComma (removeComments (pieces.flatMap Piece.written ++ rest)) := by
        intro hcomma _
        rw [hstripped]
        exact not_leadsWithComma hcomma
      cases mark with
      | openObject => exact .char (by decide) (by decide) (fun hc => by cases hc) (ho h.1) (ih h.2)
      | openArray => exact .char (by decide) (by decide) (fun hc => by cases hc) (ho h.1) (ih h.2)
      | _ => exact safe_cons (by decide) (by decide) (by decide) (by decide) (ih h)
    | extraComma => exact safe_cons (by decide) (by decide) (by decide) (by decide) (ih h)

theorem Document.safe (document : Document) : Safe document.written := by
  apply safe_pieces document.apart_pieces (removeComments_ending document)
  unfold Document.endingText
  cases document.ending with
  | none => exact .nil
  | some body =>
    apply Safe.line
    rw [dropWhile_ending body.property]
    exact .nil

end ImportAlias.Json
