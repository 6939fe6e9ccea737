import ImportAlias.Proofs.ReadableTexts
import ImportAlias.Proofs.SafeTexts
import Mathlib

/-!
# Documents behind stripped texts

A stripped text that can be read is the text of a document without comments and
extra commas. When the text that was stripped is safe, the tokens of this document
are found in it one after the other, with the comments that were deleted between
them, so it is the text of a document as well, with the same value. A text that is
not safe is no document, whatever its stripped text reads as.
-/

namespace ImportAlias.Json

theorem removeComments_literal {text literal rest : List Char}
    (h : literalEnd? true text = some (literal, rest)) :
    removeComments ('"' :: text) = '"' :: literal ++ removeComments rest := by
  rw [removeComments, h]

theorem removeTrailingCommas_literal {text literal rest : List Char}
    (h : literalEnd? false text = some (literal, rest)) :
    removeTrailingCommas ('"' :: text) = '"' :: literal ++ removeTrailingCommas rest := by
  rw [removeTrailingCommas, h]

theorem removeTrailingCommas_open {text : List Char} (h : literalEnd? false text = none) :
    removeTrailingCommas ('"' :: text) = '"' :: removeTrailingCommas text := by
  rw [removeTrailingCommas, h]

/-- A character that starts no literal is kept, unless it is a comma in front of a closing
bracket. -/
theorem removeTrailingCommas_cases {c : Char} {text : List Char}
    (hopen : c = '"' → literalEnd? false text = none) :
    removeTrailingCommas (c :: text) = c :: removeTrailingCommas text ∨
    (c = ',' ∧ closesNext text = true ∧
      removeTrailingCommas (c :: text) = removeTrailingCommas text) := by
  by_cases hq : c = '"'
  · subst hq
    exact .inl (removeTrailingCommas_open (hopen rfl))
  by_cases hcomma : c = ','
  · subst hcomma
    cases hclose : closesNext text with
    | true => exact .inr ⟨rfl, rfl, by rw [removeTrailingCommas, if_pos hclose]⟩
    | false => exact .inl (by rw [removeTrailingCommas, if_neg (by simp [hclose])])
  · exact .inl (removeTrailingCommas_cons hq hcomma text)

theorem exists_cons_of_closesNext {text : List Char} (h : closesNext text = true) :
    ∃ c rest, text = c :: rest ∧ (Text.isBlank c = true ∨ c = ']' ∨ c = '}') := by
  cases text with
  | nil => cases h
  | cons c rest =>
    refine ⟨c, rest, rfl, ?_⟩
    cases hc : Text.isBlank c with
    | true => exact .inl rfl
    | false =>
      rw [closesNext_cons hc] at h
      exact .inr (by simpa using h)

/-- A literal ends where it ends, whatever comes behind it. Within its line it ends there or not at
all. -/
theorem literalEnd?_append {acrossLines : Bool} {text literal rest : List Char}
    (h : literalEnd? acrossLines text = some (literal, rest)) (other : List Char) :
    literalEnd? acrossLines (literal ++ other) = some (literal, other) ∧
      (literalEnd? false (literal ++ other) = some (literal, other) ∨
        literalEnd? false (literal ++ other) = none) := by
  fun_induction literalEnd? acrossLines text generalizing literal with
  | case2 tail =>
    obtain ⟨rfl, rfl⟩ : ['"'] = literal ∧ tail = rest := by simpa using h
    exact ⟨rfl, .inl rfl⟩
  | case4 c tail hc ih =>
    obtain ⟨⟨found, behind⟩, hl, he⟩ := Option.map_eq_some_iff.mp h
    obtain ⟨rfl, rfl⟩ : '\\' :: c :: found = literal ∧ behind = rest := by simpa using he
    obtain ⟨hsame, hline⟩ := ih hl
    simp only [List.cons_append]
    refine ⟨?_, ?_⟩
    · rw [literalEnd?, if_neg hc, hsame]
      rfl
    · by_cases hn : c = '\n'
      · exact .inr (by rw [literalEnd?, if_pos ⟨hn, rfl⟩])
      · rw [literalEnd?_escape hn]
        rcases hline with hline | hline <;> simp [hline]
  | case6 c tail hq hb hc ih =>
    obtain ⟨⟨found, behind⟩, hl, he⟩ := Option.map_eq_some_iff.mp h
    obtain ⟨rfl, rfl⟩ : c :: found = literal ∧ behind = rest := by simpa using he
    obtain ⟨hsame, hline⟩ := ih hl
    simp only [List.cons_append]
    rw [literalEnd?_cons_of_ne hq hc, literalEnd?_cons_of_ne hq hc, hsame]
    refine ⟨rfl, ?_⟩
    rcases hline with hline | hline <;> simp [hline]
  | _ => cases h

theorem literalEnd?_escape_eq_none {text : List Char} (c : Char)
    (h : literalEnd? false text = none) : literalEnd? false ('\\' :: c :: text) = none := by
  by_cases hn : c = '\n'
  · rw [literalEnd?, if_pos ⟨hn, rfl⟩]
  · rw [literalEnd?_escape hn, h]
    rfl

theorem literalEnd?_cons_eq_none_iff {c : Char} (hq : c ≠ '"') (hb : c ≠ '\\')
    (text : List Char) : literalEnd? false (c :: text) = none ↔ literalEnd? false text = none := by
  rw [literalEnd?_cons_of_ne hq hb, Option.map_eq_none_iff]

/-- A quote that nothing closes on its line stays so when commas are deleted, also where a backslash
stands in front of the comma. -/
theorem literalEnd?_removeTrailingCommas {text : List Char} (h : literalEnd? false text = none) :
    literalEnd? false (removeTrailingCommas text) = none := by
  fun_induction literalEnd? false text with
  | case1 => rw [removeTrailingCommas, literalEnd?]
  | case2 => cases h
  | case3 c tail hc =>
    obtain ⟨rfl, -⟩ := hc
    rw [removeTrailingCommas_cons (by decide) (by decide),
      removeTrailingCommas_cons (by decide) (by decide), literalEnd?, if_pos ⟨rfl, rfl⟩]
  | case4 c tail _ ih =>
    have hn := Option.map_eq_none_iff.mp h
    rw [removeTrailingCommas_cons (by decide) (by decide)]
    obtain hkept | ⟨-, hclose, hextra⟩ := removeTrailingCommas_cases (c := c) fun _ => hn
    · rw [hkept]
      exact literalEnd?_escape_eq_none c (ih hn)
    · -- the backslash takes the character behind the comma instead, which is no quote
      rw [hextra]
      obtain ⟨d, behind, rfl, hd⟩ := exists_cons_of_closesNext hclose
      have hne : d ≠ '"' ∧ d ≠ ',' ∧ d ≠ '\\' := by
        refine ⟨?_, ?_, ?_⟩ <;> rintro rfl <;> revert hd <;> decide
      have hbehind := ih hn
      rw [removeTrailingCommas_cons hne.1 hne.2.1] at hbehind ⊢
      rw [literalEnd?_cons_eq_none_iff hne.1 hne.2.2] at hbehind
      exact literalEnd?_escape_eq_none d hbehind
  | case5 tail _ htail =>
    cases tail with
    | nil => simp [removeTrailingCommas, literalEnd?]
    | cons c tail => exact absurd rfl (htail c tail rfl)
  | case6 c tail hq _ hb ih =>
    have hn := Option.map_eq_none_iff.mp h
    obtain hkept | ⟨-, -, hextra⟩ := removeTrailingCommas_cases (c := c) fun _ => hn
    · rw [hkept, literalEnd?_cons_eq_none_iff hq hb]
      exact ih hn
    · rw [hextra]
      exact ih hn

theorem exists_body_of_blockEnd? {text rest : List Char} (h : blockEnd? text = some rest) :
    ∃ body, ¬ ['*', '/'] <:+: body ∧ text = body ++ '*' :: '/' :: rest := by
  fun_induction blockEnd? text with
  | case1 => cases h
  | case2 tail =>
    obtain rfl : tail = rest := by simpa using h
    exact ⟨[], by simp, rfl⟩
  | case3 c tail hc ih =>
    obtain ⟨body, hb, rfl⟩ := ih h
    refine ⟨c :: body, ?_, rfl⟩
    rw [List.infix_cons_iff, not_or]
    refine ⟨?_, hb⟩
    -- the end of the comment would have been found earlier
    rintro ⟨behind, he⟩
    obtain ⟨rfl, hbody⟩ : '*' = c ∧ '/' :: behind = body := by simpa using he
    exact hc (behind ++ '*' :: '/' :: rest) rfl (by rw [← hbody]; rfl)

/-- No white space and no closed comment comes next. -/
def Bound (text : List Char) : Prop :=
  ∀ (filler : Filler) (rest : List Char), text ≠ filler.written ++ rest

theorem Bound.isJsonSpace {c : Char} {rest : List Char} (h : Bound (c :: rest)) :
    Text.isJsonSpace c = false := by
  by_contra hc
  exact h (.blank c (by simpa using hc)) rest rfl

theorem Filler.written_ne_nil (filler : Filler) : filler.written ≠ [] := by
  cases filler <;> simp [Filler.written]

theorem exists_fillers (text : List Char) :
    ∃ (fillers : Gap) (rest : List Char),
      text = (Piece.gap fillers).flatMap Piece.written ++ rest ∧ Bound rest := by
  by_cases hb : Bound text
  · exact ⟨[], text, rfl, hb⟩
  · obtain ⟨filler, behind, htext⟩ : ∃ filler behind, text = Filler.written filler ++ behind := by
      simpa [Bound] using hb
    have hshorter : behind.length < text.length := by
      have hpos := List.length_pos_iff.mpr filler.written_ne_nil
      rw [htext, List.length_append]
      omega
    obtain ⟨fillers, rest, he, hr⟩ := exists_fillers behind
    refine ⟨filler :: fillers, rest, ?_, hr⟩
    rw [htext, he]
    simp [Piece.gap, Piece.written]
termination_by text.length

theorem Safe.of_char {c : Char} {rest : List Char} (hq : c ≠ '"') (hs : c ≠ '/')
    (h : Safe (c :: rest)) : Safe rest := by
  cases h with
  | literal => exact absurd rfl hq
  | line => exact absurd rfl hs
  | block => exact absurd rfl hs
  | char _ _ _ _ ht => exact ht

theorem Safe.of_space {c : Char} {rest : List Char} (hc : Text.isJsonSpace c = true)
    (h : Safe (c :: rest)) : Safe rest := by
  refine h.of_char ?_ ?_ <;> rintro rfl <;> cases hc

theorem Safe.of_filler {filler : Filler} {rest : List Char}
    (h : Safe (filler.written ++ rest)) : Safe rest := by
  cases filler with
  | blank c hc => exact h.of_space hc
  | block body hb =>
    simp only [Filler.written, List.cons_append, List.append_assoc, List.nil_append] at h
    cases h with
    | block he ht =>
      rw [blockEnd?_append hb] at he
      cases he
      exact ht
    | char _ hs => exact absurd rfl hs
  | line body hb =>
    simp only [Filler.written, List.cons_append, List.append_assoc, List.nil_append] at h
    cases h with
    | line ht =>
      rw [dropWhile_line hb] at ht
      exact ht.of_space (by decide)
    | char _ hs => exact absurd rfl hs

theorem Safe.of_gap {fillers : Gap} {rest : List Char}
    (h : Safe ((Piece.gap fillers).flatMap Piece.written ++ rest)) : Safe rest := by
  induction fillers with
  | nil => exact h
  | cons filler fillers ih =>
    have hf : Safe (filler.written ++ ((Piece.gap fillers).flatMap Piece.written ++ rest)) := by
      simpa [Piece.gap, Piece.written] using h
    exact ih hf.of_filler

theorem removeComments_gap (fillers : Gap) (rest : List Char) :
    removeComments ((Piece.gap fillers).flatMap Piece.written ++ rest) =
      (Piece.gap fillers).flatMap Piece.bare ++ removeComments rest := by
  rw [removeComments_pieces]
  congr 1
  induction fillers with
  | nil => rfl
  | cons filler fillers ih =>
    rw [Piece.gap, List.map_cons, List.flatMap_cons, List.flatMap_cons]
    exact congrArg _ ih

theorem removeTrailingCommas_space {blanks : List Char}
    (hb : ∀ c ∈ blanks, Text.isJsonSpace c = true) (rest : List Char) :
    removeTrailingCommas (blanks ++ rest) = blanks ++ removeTrailingCommas rest := by
  apply removeTrailingCommas_append
  intro c hc
  have := hb c hc
  constructor <;> rintro rfl <;> cases this

theorem stripComments_gap (fillers : Gap) (rest : List Char) :
    stripComments ((Piece.gap fillers).flatMap Piece.written ++ rest) =
      (Piece.gap fillers).flatMap Piece.bare ++ stripComments rest := by
  rw [stripComments, removeComments_gap, removeTrailingCommas_space (isJsonSpace_gap fillers),
    stripComments]

/-- A safe text at whose start a token stands, and what is left of it up to white space. -/
structure Strips (text bare : List Char) : Prop where
  bound : Bound text
  safe : Safe text
  eq : (stripComments text).dropWhile Text.isJsonSpace = bare.dropWhile Text.isJsonSpace

/-- Behind the gap that a safe text starts with, a token comes next. -/
theorem exists_strips {text bare : List Char} (hs : Safe text)
    (h : (stripComments text).dropWhile Text.isJsonSpace = bare.dropWhile Text.isJsonSpace) :
    ∃ (fillers : Gap) (rest : List Char),
      text = (Piece.gap fillers).flatMap Piece.written ++ rest ∧ Strips rest bare := by
  obtain ⟨fillers, rest, rfl, hb⟩ := exists_fillers text
  refine ⟨fillers, rest, rfl, hb, hs.of_gap, ?_⟩
  rw [← h, stripComments_gap, List.dropWhile_append_of_pos (isJsonSpace_gap fillers)]

theorem Strips.of_gap {text bare : List Char} {fillers : Gap}
    (h : Strips text ((Piece.gap fillers).flatMap Piece.bare ++ bare)) : Strips text bare := by
  refine ⟨h.bound, h.safe, ?_⟩
  rw [h.eq, List.dropWhile_append_of_pos (isJsonSpace_gap fillers)]

theorem closes_of_closesNext {text : List Char} (h : closesNext text = true) :
    ∃ c rest, (removeTrailingCommas text).dropWhile Text.isJsonSpace = c :: rest ∧
      (Text.isBlank c = true ∨ c = ']' ∨ c = '}') := by
  induction text with
  | nil => cases h
  | cons d text ih =>
    obtain ⟨d, text, he, hd⟩ := exists_cons_of_closesNext h
    obtain ⟨rfl, rfl⟩ := List.cons.inj he
    have hne : d ≠ '"' ∧ d ≠ ',' := by
      constructor <;> rintro rfl <;> revert hd <;> decide
    rw [removeTrailingCommas_cons hne.1 hne.2]
    cases hspace : Text.isJsonSpace d with
    | true =>
      have hblank : ∀ c ∈ [d], Text.isBlank c = true := by
        simpa using Text.isBlank_of_isJsonSpace hspace
      rw [List.dropWhile_cons_of_pos hspace]
      exact ih ((closesNext_append hblank _).symm.trans h)
    | false =>
      rw [List.dropWhile_cons_of_neg (by simp [hspace])]
      exact ⟨d, _, rfl, hd⟩

/-- A character that is not part of a literal or comment is left as it is, or is a comma that is
deleted. -/
theorem Strips.char_cases {c : Char} {rest bare : List Char} (h : Strips (c :: rest) bare)
    (hq : c ≠ '"') (hs : c ≠ '/') :
    (bare.dropWhile Text.isJsonSpace = c :: stripComments rest) ∨
    (c = ',' ∧ closesNext (removeComments rest) = true ∧
      bare.dropWhile Text.isJsonSpace = (stripComments rest).dropWhile Text.isJsonSpace) := by
  rw [← h.eq, stripComments, removeComments_cons hq hs]
  obtain hkept | ⟨hcomma, hclose, hextra⟩ :=
    removeTrailingCommas_cases fun hquote : c = '"' => absurd hquote hq
  · rw [hkept, List.dropWhile_cons_of_neg (by simp [h.bound.isJsonSpace])]
    exact .inl rfl
  · rw [hextra]
    exact .inr ⟨hcomma, hclose, rfl⟩

theorem stripComments_quote {rest : List Char} (h : Safe ('"' :: rest)) :
    ∃ others, stripComments ('"' :: rest) = '"' :: others := by
  cases h with
  | @literal literal tail _ hl ht =>
    rw [stripComments, removeComments_literal hl, List.cons_append]
    cases hline : literalEnd? false (literal ++ removeComments tail) with
    | none => exact ⟨_, removeTrailingCommas_open hline⟩
    | some found => exact ⟨_, removeTrailingCommas_literal hline⟩
  | char hq => exact absurd rfl hq

/-- What a text may start with where a token comes next: nothing, a comment that the end of the text
ends, a quote, or another character. -/
theorem Strips.cases {text bare : List Char} (h : Strips text bare) :
    (bare.dropWhile Text.isJsonSpace = [] ∧
      (text = [] ∨ ∃ body, '\n' ∉ body ∧ text = '/' :: '/' :: body)) ∨
    (∃ rest others, text = '"' :: rest ∧ bare.dropWhile Text.isJsonSpace = '"' :: others) ∨
    ∃ c rest, text = c :: rest ∧ c ≠ '"' ∧ c ≠ '/' := by
  rw [← h.eq]
  cases h.safe with
  | nil =>
    rw [stripComments, removeComments, removeTrailingCommas]
    exact .inl ⟨rfl, .inl rfl⟩
  | literal hl ht =>
    obtain ⟨others, ho⟩ := stripComments_quote (.literal hl ht)
    rw [ho, List.dropWhile_cons_of_neg (by decide)]
    exact .inr (.inl ⟨_, others, rfl, rfl⟩)
  | @line rest ht =>
    have hn : '\n' ∉ rest := by
      intro hm
      obtain ⟨body, behind, rfl, hb⟩ := List.eq_append_cons_of_mem hm
      exact h.bound (.line body hb) behind (by simp [Filler.written])
    rw [stripComments, removeComments, dropWhile_ending hn, removeComments, removeTrailingCommas]
    exact .inl ⟨rfl, .inr ⟨rest, hn, rfl⟩⟩
  | @block rest tail hb ht =>
    obtain ⟨body, hbody, rfl⟩ := exists_body_of_blockEnd? hb
    exact absurd (by simp [Filler.written]) (h.bound (.block body hbody) tail)
  | char hq hs => exact .inr (.inr ⟨_, _, rfl, hq, hs⟩)

theorem Strips.ending {text : List Char} (h : Strips text []) :
    text = [] ∨ ∃ body, '\n' ∉ body ∧ text = '/' :: '/' :: body := by
  obtain ⟨-, hend⟩ | ⟨rest, others, -, he⟩ | ⟨c, rest, rfl, hq, hs⟩ := h.cases
  · exact hend
  · cases he
  · obtain he | ⟨rfl, hclose, he⟩ := h.char_cases hq hs
    · cases he
    · obtain ⟨c, behind, hc, -⟩ := closes_of_closesNext hclose
      rw [stripComments, hc] at he
      cases he

/-- Neither white space nor a closing bracket: a comma in front of it is kept. -/
def KeepsComma (c : Char) : Prop :=
  Text.isBlank c = false ∧ c ≠ ']' ∧ c ≠ '}'

instance : DecidablePred KeepsComma := fun _ => inferInstanceAs (Decidable (_ ∧ _ ∧ _))

theorem closesNext_eq_false {text rest : List Char} {c : Char} (hc : KeepsComma c)
    (h : (removeTrailingCommas text).dropWhile Text.isJsonSpace = c :: rest) :
    closesNext text = false := by
  rw [Bool.eq_false_iff]
  intro hclose
  obtain ⟨d, behind, hd, hb⟩ := closes_of_closesNext hclose
  rw [hd] at h
  obtain ⟨rfl, -⟩ := List.cons.inj h
  rcases hb with hb | hb | hb
  · rw [hc.1] at hb
    cases hb
  · exact hc.2.1 hb
  · exact hc.2.2 hb

theorem dropWhile_of_not_isBlank {c : Char} (hc : Text.isBlank c = false) (rest : List Char) :
    (c :: rest).dropWhile Text.isJsonSpace = c :: rest :=
  List.dropWhile_cons_of_neg (by simp [isJsonSpace_of_not_isBlank hc])

theorem head?_of_removeTrailingCommas {text rest : List Char} {c : Char} (hc : KeepsComma c)
    (h : removeTrailingCommas text = c :: rest) : text.head? = some c := by
  cases text with
  | nil =>
    rw [removeTrailingCommas] at h
    cases h
  | cons d text =>
    rw [List.head?_cons]
    by_cases hopen : d = '"' → literalEnd? false text = none
    · obtain hkept | ⟨-, hclose, hextra⟩ := removeTrailingCommas_cases hopen
      · rw [hkept] at h
        rw [(List.cons.inj h).1]
      · rw [hextra] at h
        rw [closesNext_eq_false hc (by rw [h, dropWhile_of_not_isBlank hc.1])] at hclose
        cases hclose
    · obtain ⟨rfl, hline⟩ := Classical.not_imp.mp hopen
      obtain ⟨found, hfound⟩ := Option.ne_none_iff_exists'.mp hline
      rw [removeTrailingCommas_literal hfound] at h
      rw [(List.cons.inj h).1]

/-- What is left starts as the text does, unless a comma in front of it is gone. -/
theorem Strips.cons_cases {text bare : List Char} {c : Char} (h : Strips text (c :: bare))
    (hc : Text.isBlank c = false) :
    (∃ rest, text = c :: rest) ∨
    ∃ rest, text = ',' :: rest ∧ closesNext (removeComments rest) = true ∧
      (stripComments rest).dropWhile Text.isJsonSpace = c :: bare := by
  have hcases := h.cases
  rw [dropWhile_of_not_isBlank hc] at hcases
  obtain ⟨he, -⟩ | ⟨rest, others, rfl, he⟩ | ⟨d, rest, rfl, hq, hs⟩ := hcases
  · cases he
  · exact .inl ⟨rest, by rw [(List.cons.inj he).1]⟩
  · have hchar := h.char_cases hq hs
    rw [dropWhile_of_not_isBlank hc] at hchar
    obtain he | ⟨rfl, hclose, he⟩ := hchar
    · exact .inl ⟨rest, by rw [(List.cons.inj he).1]⟩
    · exact .inr ⟨rest, rfl, hclose, he.symm⟩

theorem Strips.exists_cons {text bare : List Char} {c : Char} (h : Strips text (c :: bare))
    (hc : KeepsComma c) : ∃ rest, text = c :: rest := by
  obtain hfirst | ⟨rest, -, hclose, he⟩ := h.cons_cases hc.1
  · exact hfirst
  · rw [closesNext_eq_false hc he] at hclose
    cases hclose

theorem Strips.tail {rest bare : List Char} {c : Char} (h : Strips (c :: rest) (c :: bare))
    (hq : c ≠ '"') (hs : c ≠ '/') : Safe rest ∧ stripComments rest = bare := by
  refine ⟨h.safe.of_char hq hs, ?_⟩
  have hblank : c = ',' → KeepsComma c := by
    rintro rfl
    decide
  have hchar := h.char_cases hq hs
  rw [List.dropWhile_cons_of_neg (by simp [h.bound.isJsonSpace])] at hchar
  obtain he | ⟨hcomma, hclose, he⟩ := hchar
  · exact (List.cons.inj he).2.symm
  · rw [closesNext_eq_false (hblank hcomma) he.symm] at hclose
    cases hclose

theorem keepsComma_of_isScalarChar {c : Char} (h : isScalarChar c = true) : KeepsComma c :=
  ⟨isBlank_of_isScalarChar h, (ne_of_isScalarChar h).2.2.2⟩

theorem bound_of_isScalarChar {c : Char} (h : isScalarChar c = true) (rest : List Char) :
    Bound (c :: rest) := by
  intro filler behind he
  cases filler with
  | blank d hd =>
    obtain ⟨rfl, -⟩ := List.cons.inj he
    rw [isJsonSpace_of_not_isBlank (isBlank_of_isScalarChar h)] at hd
    cases hd
  | block => exact (ne_of_isScalarChar h).2.1 (List.cons.inj he).1
  | line => exact (ne_of_isScalarChar h).2.1 (List.cons.inj he).1

/-- A number or word that goes on in the stripped text goes on in the text. -/
theorem Safe.goes_on {rest bare : List Char} {c d : Char} (h : Safe (c :: rest))
    (hc : isScalarChar c = true) (hd : isScalarChar d = true)
    (hbare : stripComments rest = d :: bare) : Strips rest (d :: bare) := by
  have hne := ne_of_isScalarChar hc
  have hsafe := h.of_char hne.1 hne.2.1
  have hends : ¬ Ends rest := by
    intro hends
    have hafter : Ends (removeComments rest) := by
      cases h with
      | literal => exact absurd rfl hne.1
      | line => exact absurd rfl hne.2.1
      | block => exact absurd rfl hne.2.1
      | char _ _ hj => exact hj hc hends
    have hhead := head?_of_removeTrailingCommas (keepsComma_of_isScalarChar hd) hbare
    rw [hafter d hhead] at hd
    cases hd
  obtain ⟨e, he, hscalar⟩ : ∃ e, rest.head? = some e ∧ isScalarChar e = true := by
    simpa [Ends] using hends
  cases rest with
  | nil => cases he
  | cons e rest =>
    obtain rfl := Option.some.inj he
    exact ⟨bound_of_isScalarChar hscalar rest, hsafe, by rw [hbare]⟩

theorem Strips.exists_chars {text bare chars : List Char} {c : Char}
    (hc : ∀ d ∈ c :: chars, isScalarChar d = true) (h : Strips text (c :: chars ++ bare)) :
    ∃ rest, text = c :: chars ++ rest ∧ Safe rest ∧ stripComments rest = bare := by
  induction chars generalizing c text with
  | nil =>
    have hfirst := hc c List.mem_cons_self
    have hne := ne_of_isScalarChar hfirst
    obtain ⟨rest, rfl⟩ := h.exists_cons (keepsComma_of_isScalarChar hfirst)
    exact ⟨rest, rfl, h.tail hne.1 hne.2.1⟩
  | cons d chars ih =>
    obtain ⟨hfirst, hothers⟩ := List.forall_mem_cons.mp hc
    have hne := ne_of_isScalarChar hfirst
    obtain ⟨behind, rfl⟩ := h.exists_cons (keepsComma_of_isScalarChar hfirst)
    obtain ⟨-, hbare⟩ := h.tail hne.1 hne.2.1
    have hnext := h.safe.goes_on hfirst (hothers d List.mem_cons_self) hbare
    obtain ⟨rest, rfl, hrest⟩ := ih hothers hnext
    exact ⟨rest, rfl, hrest⟩

theorem Strips.exists_scalar {text bare : List Char} {scalar : Scalar}
    (h : Strips text (scalar.written ++ bare)) :
    ∃ rest, text = scalar.written ++ rest ∧ Safe rest ∧ stripComments rest = bare := by
  obtain ⟨c, chars, hw⟩ := List.exists_cons_of_ne_nil scalar.written_ne_nil
  have hc := scalar.isScalarChar
  rw [hw] at h hc ⊢
  exact h.exists_chars hc

/-- The literal that the second pass leaves is the one that the first pass left: behind a quote that
is not closed on its line it leaves no literal. -/
theorem eq_of_removeTrailingCommas_literal {text found rest other bare : List Char}
    {literal : Literal} (hl : literalEnd? true text = some (found, rest))
    (h : removeTrailingCommas ('"' :: (found ++ other)) = literal.written ++ bare) :
    '"' :: found = literal.written ∧ removeTrailingCommas other = bare := by
  simp only [Literal.written, List.cons_append, List.append_assoc, List.nil_append] at h ⊢
  have hletters := fun acrossLines => literalEnd?_letters literal acrossLines bare
  rcases (literalEnd?_append hl other).2 with hline | hline
  · rw [removeTrailingCommas_literal hline, List.cons_append] at h
    have hsame := (literalEnd?_append hl (removeTrailingCommas other)).1
    rw [(List.cons.inj h).2, hletters] at hsame
    obtain ⟨rfl, rfl⟩ : literal.flatMap Letter.written ++ ['"'] = found ∧
        bare = removeTrailingCommas other := by simpa using hsame
    exact ⟨rfl, rfl⟩
  · rw [removeTrailingCommas_open hline] at h
    have hopen := literalEnd?_removeTrailingCommas hline
    rw [(List.cons.inj h).2, hletters] at hopen
    cases hopen

theorem Strips.exists_literal {text bare : List Char} {literal : Literal}
    (h : Strips text (literal.written ++ bare)) :
    ∃ rest, text = literal.written ++ rest ∧ Safe rest ∧ stripComments rest = bare := by
  obtain ⟨behind, rfl⟩ := h.exists_cons (by decide)
  have hbare : stripComments ('"' :: behind) = literal.written ++ bare := by
    obtain ⟨others, ho⟩ := stripComments_quote h.safe
    have heq := h.eq
    rwa [ho, Literal.written, List.cons_append, dropWhile_of_not_isBlank (by decide),
      dropWhile_of_not_isBlank (by decide), ← ho] at heq
  cases h.safe with
  | char hq => exact absurd rfl hq
  | literal hl hrest =>
    obtain rfl := eq_append_of_literalEnd? hl
    rw [stripComments, removeComments_literal hl] at hbare
    obtain ⟨hfound, hleft⟩ := eq_of_removeTrailingCommas_literal hl hbare
    exact ⟨_, by rw [← hfound, List.cons_append], hrest, hleft⟩

/-- A token that no comma is deleted in front of. -/
def Piece.inner : Piece → Bool
  | .scalar _ => true
  | .text _ => true
  | .mark m => !m.closes
  | _ => false

theorem exists_gap_after {behind bare : List Char} {fillers : Gap} (hs : Safe behind)
    (hb : stripComments behind = (Piece.gap fillers).flatMap Piece.bare ++ bare) :
    ∃ (after : Gap) (rest : List Char),
      behind = (Piece.gap after).flatMap Piece.written ++ rest ∧ Strips rest bare := by
  obtain ⟨after, rest, he, hr⟩ := exists_strips hs (by rw [hb])
  exact ⟨after, rest, he, hr.of_gap⟩

theorem Strips.exists_after {text bare : List Char} {piece : Piece} {fillers : Gap}
    (h : Strips text ((piece :: Piece.gap fillers).flatMap Piece.bare ++ bare))
    (hp : piece.inner = true) :
    ∃ (after : Gap) (rest : List Char),
      text = (piece :: Piece.gap after).flatMap Piece.written ++ rest ∧ Strips rest bare := by
  rw [flatMap_bare_cons] at h
  obtain ⟨behind, rfl, hs, hb⟩ : ∃ behind, text = piece.written ++ behind ∧ Safe behind ∧
      stripComments behind = (Piece.gap fillers).flatMap Piece.bare ++ bare := by
    cases piece with
    | scalar scalar => exact h.exists_scalar
    | text literal => exact h.exists_literal
    | mark mark =>
      have hc : KeepsComma mark.char := by
        cases mark with
        | closeObject => cases hp
        | closeArray => cases hp
        | _ => decide
      obtain ⟨behind, rfl⟩ := h.exists_cons hc
      exact ⟨behind, rfl, h.tail mark.char_ne.1 mark.char_ne.2⟩
    | filler => cases hp
    | extraComma => cases hp
  obtain ⟨after, rest, rfl, hr⟩ := exists_gap_after hs hb
  exact ⟨after, rest, by simp, hr⟩

theorem isBlank_gap (fillers : Gap) :
    ∀ c ∈ (Piece.gap fillers).flatMap Piece.bare, Text.isBlank c = true :=
  fun c hc => Text.isBlank_of_isJsonSpace (isJsonSpace_gap fillers c hc)

theorem closesNext_comma_gap (fillers : Gap) (rest : List Char) :
    closesNext (removeComments ((Piece.gap fillers).flatMap Piece.written ++ ',' :: rest)) =
      false := by
  rw [removeComments_gap, removeComments_cons (by decide) (by decide),
    closesNext_append (isBlank_gap fillers), closesNext_cons (by decide)]
  decide

/-- A mark of the stripped text and its gap are a mark and a gap of the text, perhaps with one comma
in front that is gone. -/
theorem Strips.exists_closing {text bare : List Char} {mark : Mark} {fillers : Gap}
    (h : Strips text ((.mark mark :: Piece.gap fillers).flatMap Piece.bare ++ bare)) :
    ∃ (extra : Option Gap) (after : Gap) (rest : List Char),
      text = (Piece.extra extra ++ .mark mark :: Piece.gap after).flatMap Piece.written ++ rest ∧
      Strips rest bare := by
  rw [flatMap_bare_mark] at h
  have hc : Text.isBlank mark.char = false := by cases mark <;> decide
  have hclosed : ∀ {text : List Char}, (∃ rest, text = mark.char :: rest) →
      Strips text (mark.char :: ((Piece.gap fillers).flatMap Piece.bare ++ bare)) →
      ∃ (after : Gap) (rest : List Char),
        text = (.mark mark :: Piece.gap after).flatMap Piece.written ++ rest ∧
        Strips rest bare := by
    rintro _ ⟨behind, rfl⟩ h
    obtain ⟨hs, hb⟩ := h.tail mark.char_ne.1 mark.char_ne.2
    obtain ⟨after, rest, rfl, hr⟩ := exists_gap_after hs hb
    exact ⟨after, rest, rfl, hr⟩
  obtain hfirst | ⟨behind, rfl, hclose, he⟩ := h.cons_cases hc
  · obtain ⟨after, rest, rfl, hr⟩ := hclosed hfirst h
    exact ⟨none, after, rest, rfl, hr⟩
  · have hs : Safe behind := h.safe.of_char (by decide) (by decide)
    obtain ⟨inside, middle, rfl, hmiddle⟩ :=
      exists_strips hs (he.trans (dropWhile_of_not_isBlank hc _).symm)
    obtain hfirst | ⟨others, rfl, -, -⟩ := hmiddle.cons_cases hc
    · obtain ⟨after, rest, rfl, hr⟩ := hclosed hfirst hmiddle
      exact ⟨some inside, after, rest, by simp [Piece.extra, Piece.written], hr⟩
    · -- a second comma would have kept the first one
      rw [closesNext_comma_gap] at hclose
      cases hclose

theorem Strips.of_extra {text bare : List Char} {extra : Option Gap}
    (h : Strips text ((Piece.extra extra).flatMap Piece.bare ++ bare)) : Strips text bare := by
  cases extra with
  | none => exact h
  | some fillers => exact Strips.of_gap h

theorem extra_eq_none {mark : Mark} (hm : mark = .openArray ∨ mark = .openObject) {inside : Gap}
    {extra : Option Gap} {rest : List Char}
    (h : Safe ((.mark mark :: Piece.gap inside).flatMap Piece.written ++
      ((Piece.extra extra).flatMap Piece.written ++ rest))) : extra = none := by
  cases extra with
  | none => rfl
  | some fillers =>
    have hopen : mark.char = '[' ∨ mark.char = '{' := by
      rcases hm with rfl | rfl
      · exact .inl rfl
      · exact .inr rfl
    simp only [Piece.extra, List.flatMap_cons, Piece.written, List.cons_append,
      List.nil_append] at h
    exfalso
    have hleads : LeadsWithComma (removeComments ((Piece.gap inside).flatMap Piece.written ++
        ',' :: ((Piece.gap fillers).flatMap Piece.written ++ rest))) := by
      rw [removeComments_gap, removeComments_cons (by decide) (by decide),
        leadsWithComma_append (isBlank_gap inside), leadsWithComma_cons (by decide)]
    generalize mark.char = c at h hopen
    generalize (Piece.gap inside).flatMap Piece.written ++ _ = behind at h hleads
    cases h with
    | char _ _ _ ho => exact ho hopen hleads
    | _ => simp at hopen

mutual

theorem Element.exists_written {text bare : List Char} :
    ∀ element : Element, Strips text (element.pieces.flatMap Piece.bare ++ bare) →
      ∃ (found : Element) (rest : List Char),
        text = found.pieces.flatMap Piece.written ++ rest ∧ Strips rest bare
  | .scalar scalar after, h => by
    rw [Element.pieces] at h
    obtain ⟨after, rest, rfl, hr⟩ := h.exists_after rfl
    exact ⟨.scalar scalar after, rest, rfl, hr⟩
  | .text literal after, h => by
    rw [Element.pieces] at h
    obtain ⟨after, rest, rfl, hr⟩ := h.exists_after rfl
    exact ⟨.text literal after, rest, rfl, hr⟩
  | .emptyArray inside after, h => by
    rw [Element.pieces, ← List.cons_append, flatMap_bare_append] at h
    obtain ⟨inside, middle, rfl, hm⟩ := h.exists_after rfl
    obtain ⟨extra, after, rest, rfl, hr⟩ := hm.exists_closing
    rw [List.flatMap_append, List.append_assoc] at h
    obtain rfl := extra_eq_none (.inl rfl) h.safe
    exact ⟨.emptyArray inside after, rest, by simp [Element.pieces, Piece.extra], hr⟩
  | .array inside items after, h => by
    rw [Element.pieces, ← List.cons_append, flatMap_bare_append] at h
    obtain ⟨inside, middle, rfl, hm⟩ := h.exists_after rfl
    obtain ⟨items, after, rest, rfl, hr⟩ := items.exists_written hm
    exact ⟨.array inside items after, rest, by simp [Element.pieces], hr⟩
  | .emptyObject inside after, h => by
    rw [Element.pieces, ← List.cons_append, flatMap_bare_append] at h
    obtain ⟨inside, middle, rfl, hm⟩ := h.exists_after rfl
    obtain ⟨extra, after, rest, rfl, hr⟩ := hm.exists_closing
    rw [List.flatMap_append, List.append_assoc] at h
    obtain rfl := extra_eq_none (.inr rfl) h.safe
    exact ⟨.emptyObject inside after, rest, by simp [Element.pieces, Piece.extra], hr⟩
  | .object inside members after, h => by
    rw [Element.pieces, ← List.cons_append, flatMap_bare_append] at h
    obtain ⟨inside, middle, rfl, hm⟩ := h.exists_after rfl
    obtain ⟨members, after, rest, rfl, hr⟩ := members.exists_written hm
    exact ⟨.object inside members after, rest, by simp [Element.pieces], hr⟩

theorem Items.exists_written {text bare : List Char} {close : Mark} {fillers : Gap} :
    ∀ items : Items,
      Strips text ((items.pieces ++ .mark close :: Piece.gap fillers).flatMap Piece.bare ++ bare) →
      ∃ (found : Items) (after : Gap) (rest : List Char),
        text = (found.pieces ++ .mark close :: Piece.gap after).flatMap Piece.written ++ rest ∧
        Strips rest bare
  | .last item extra, h => by
    rw [Items.pieces, List.append_assoc, flatMap_bare_append, flatMap_bare_append] at h
    obtain ⟨item, middle, rfl, hm⟩ := item.exists_written h
    obtain ⟨extra, after, rest, rfl, hr⟩ := hm.of_extra.exists_closing
    exact ⟨.last item extra, after, rest, by simp [Items.pieces], hr⟩
  | .more item afterComma others, h => by
    rw [Items.pieces, List.append_assoc, flatMap_bare_append, List.cons_append, List.append_assoc,
      ← List.cons_append, flatMap_bare_append] at h
    obtain ⟨item, middle, rfl, hm⟩ := item.exists_written h
    obtain ⟨afterComma, behind, rfl, hb⟩ := hm.exists_after rfl
    obtain ⟨others, after, rest, rfl, hr⟩ := others.exists_written hb
    exact ⟨.more item afterComma others, after, rest, by simp [Items.pieces], hr⟩

theorem Members.exists_written {text bare : List Char} {close : Mark} {fillers : Gap} :
    ∀ members : Members,
      Strips text
        ((members.pieces ++ .mark close :: Piece.gap fillers).flatMap Piece.bare ++ bare) →
      ∃ (found : Members) (after : Gap) (rest : List Char),
        text = (found.pieces ++ .mark close :: Piece.gap after).flatMap Piece.written ++ rest ∧
        Strips rest bare
  | .last key afterKey afterColon value extra, h => by
    have h : Strips text ((.text key :: Piece.gap afterKey).flatMap Piece.bare ++
        ((.mark .colon :: Piece.gap afterColon).flatMap Piece.bare ++
          (value.pieces.flatMap Piece.bare ++ ((Piece.extra extra).flatMap Piece.bare ++
            ((.mark close :: Piece.gap fillers).flatMap Piece.bare ++ bare))))) := by
      simpa [Members.pieces] using h
    obtain ⟨afterKey, colon, rfl, hcolon⟩ := h.exists_after rfl
    obtain ⟨afterColon, start, rfl, hs⟩ := hcolon.exists_after rfl
    obtain ⟨value, middle, rfl, hm⟩ := value.exists_written hs
    obtain ⟨extra, after, rest, rfl, hr⟩ := hm.of_extra.exists_closing
    exact ⟨.last key afterKey afterColon value extra, after, rest, by simp [Members.pieces], hr⟩
  | .more key afterKey afterColon value afterComma others, h => by
    have h : Strips text ((.text key :: Piece.gap afterKey).flatMap Piece.bare ++
        ((.mark .colon :: Piece.gap afterColon).flatMap Piece.bare ++
          (value.pieces.flatMap Piece.bare ++
            ((.mark .comma :: Piece.gap afterComma).flatMap Piece.bare ++
              ((others.pieces ++ .mark close :: Piece.gap fillers).flatMap Piece.bare ++
                bare))))) := by
      simpa [Members.pieces] using h
    obtain ⟨afterKey, colon, rfl, hcolon⟩ := h.exists_after rfl
    obtain ⟨afterColon, start, rfl, hs⟩ := hcolon.exists_after rfl
    obtain ⟨value, middle, rfl, hm⟩ := value.exists_written hs
    obtain ⟨afterComma, behind, rfl, hb⟩ := hm.exists_after rfl
    obtain ⟨others, after, rest, rfl, hr⟩ := others.exists_written hb
    exact ⟨.more key afterKey afterColon value afterComma others, after, rest,
      by simp [Members.pieces], hr⟩

end

/-- A safe text that is stripped to what a document is stripped to is the text of a document. -/
theorem Document.exists_written (document : Document) {text : List Char} (hs : Safe text)
    (h : stripComments text = document.bare) : ∃ found : Document, found.written = text := by
  obtain ⟨before, middle, rfl, hm⟩ := exists_strips hs (by rw [h])
  have hroot : Strips middle ((Piece.gap document.before).flatMap Piece.bare ++
      (document.root.pieces.flatMap Piece.bare ++ [])) := by
    simpa [Document.bare, Document.pieces] using hm
  obtain ⟨root, rest, rfl, hr⟩ := document.root.exists_written hroot.of_gap
  obtain rfl | ⟨body, hb, rfl⟩ := hr.ending
  · exact ⟨⟨before, root, none⟩, by simp [Document.written, Document.pieces, Document.endingText]⟩
  · exact ⟨⟨before, root, some ⟨body, hb⟩⟩,
      by simp [Document.written, Document.pieces, Document.endingText]⟩

/-- A text whose stripped text can be read is the text of a document with the value that is read
exactly if it is safe. -/
theorem written_iff_safe {text : List Char} {value : Value}
    (h : read (stripComments text) = .ok value) :
    (∃ document : Document, document.written = text ∧ document.value = .ok value) ↔
      Safe text := by
  constructor
  · rintro ⟨document, rfl, -⟩
    exact document.safe
  · intro hs
    obtain ⟨plain, hp, hw, -⟩ := exists_document h
    rw [← Document.bare_of_plain hp] at hw
    obtain ⟨document, rfl⟩ := plain.exists_written hs hw.symm
    refine ⟨document, rfl, ?_⟩
    rw [← document.read_bare, ← stripComments_written, h]
    rfl

theorem isDigit_one : '1'.isDigit = true := rfl

/-- A list of one item, with an extra comma and a comment behind it. -/
def shortList : Document :=
  ⟨[], .array [] (.last (.scalar (.number (digitNumber '1' isDigit_one)) [])
    (some [.block [] (by decide)])) [], none⟩

theorem written_iff_safe_list :
    read (stripComments "[1,/**/]".toList) = .ok (.array [.integer 1]) ∧
      Safe "[1,/**/]".toList := by
  have h : read (stripComments "[1,/**/]".toList) = .ok (.array [.integer 1]) := by cbv
  exact ⟨h, (written_iff_safe h).mp ⟨shortList, rfl, rfl⟩⟩

theorem not_safe_loneComma : ¬ Safe ['[', ',', ']'] := by
  intro h
  cases h with
  | char _ _ _ ho => exact ho (.inl rfl) (by cbv)

theorem not_safe_joinedNumber : ¬ Safe ['1', '/', '*', '*', '/', '2'] := by
  intro h
  cases h with
  | char _ _ hj =>
    have hends : Ends ['/', '*', '*', '/', '2'] := by
      intro c hc
      obtain rfl : '/' = c := by simpa using hc
      decide
    have hjoined : removeComments ['/', '*', '*', '/', '2'] = ['2'] := by cbv
    have hafter := hj rfl hends
    rw [hjoined] at hafter
    cases hafter '2' rfl

theorem not_safe_openQuote : ¬ Safe ['"', '\\', '/', '*', '*', '/', '\\', '"'] := by
  intro h
  cases h with
  | literal hl => cases hl
  | char hq => exact hq rfl

/-- Stripping makes texts readable that are the texts of no documents: it leaves nothing of a lone
comma, it joins the digits around a comment to one number, and it takes a comment out of the escapes
behind a quote that nothing closes. -/
theorem read_without_document :
    (read (stripComments "[,]".toList) = .ok (.array []) ∧
      ¬ ∃ document : Document, document.written = "[,]".toList) ∧
    (read (stripComments "1/**/2".toList) = .ok (.integer 12) ∧
      ¬ ∃ document : Document, document.written = "1/**/2".toList) ∧
    read (stripComments "\"\\/**/\\\"".toList) = .ok (.string "\\") ∧
      ¬ ∃ document : Document, document.written = "\"\\/**/\\\"".toList := by
  have hno : ∀ {text : List Char}, ¬ Safe text → ¬ ∃ document : Document,
      document.written = text := by
    rintro _ hs ⟨document, rfl⟩
    exact hs document.safe
  exact ⟨⟨by cbv, hno not_safe_loneComma⟩, ⟨by cbv, hno not_safe_joinedNumber⟩, by cbv,
    hno not_safe_openQuote⟩

end ImportAlias.Json
