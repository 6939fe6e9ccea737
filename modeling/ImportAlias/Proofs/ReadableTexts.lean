import ImportAlias.Proofs.DocumentReading
import Mathlib.Data.List.TakeWhile

/-!
# Texts that can be read

Every text that the reader accepts is the text of a document without comments
and extra commas, and the value that was read is the value of that document. The
document is found along the run of the reader: a token that moves it on is a
piece of the text, and the state that it moves to says which nonterminal the
pieces behind it belong to.
-/

namespace ImportAlias.Json

theorem ok_of_withUnit {unit : Nat} {found : Except Misread (List Nat × List Char)}
    {units : List Nat} {rest : List Char} (h : withUnit unit found = .ok (units, rest)) :
    ∃ others, found = .ok (others, rest) ∧ units = unit :: others := by
  cases found with
  | error misread => simp [withUnit, Except.map] at h
  | ok pair =>
    obtain ⟨others, tail⟩ := pair
    simp only [withUnit, Except.map, Except.ok.injEq, Prod.mk.injEq] at h
    obtain ⟨rfl, rfl⟩ := h
    exact ⟨others, rfl, rfl⟩

/-- Some letters in front of a closing quote give the units. -/
def Spells (text rest : List Char) (units : List Nat) : Prop :=
  ∃ letters : List Letter,
    text = letters.flatMap Letter.written ++ '"' :: rest ∧ letters.map Letter.unit = units

theorem Spells.cons {text rest : List Char} {units : List Nat} (letter : Letter)
    (h : Spells text rest units) :
    Spells (letter.written ++ text) rest (letter.unit :: units) := by
  obtain ⟨letters, rfl, rfl⟩ := h
  exact ⟨letter :: letters, by simp, rfl⟩

theorem spells_of_textUnits {opening text rest : List Char} {units : List Nat}
    (h : textUnits opening text = .ok (units, rest)) : Spells text rest units := by
  fun_induction textUnits opening text generalizing units with
  | case2 tail =>
    obtain ⟨rfl, rfl⟩ : [] = units ∧ tail = rest := by simpa using h
    exact ⟨[], rfl, rfl⟩
  | case4 a b c d next tail unit hu ih =>
    obtain ⟨others, ho, rfl⟩ := ok_of_withUnit h
    exact (ih ho).cons (.code a b c d unit hu)
  | case6 c tail hc stands hs ih =>
    obtain ⟨others, ho, rfl⟩ := ok_of_withUnit h
    exact (ih ho).cons (.escape c stands hs)
  | case10 c tail hq hb hu hs hc ih =>
    obtain ⟨others, ho, rfl⟩ := ok_of_withUnit h
    have hb : c ≠ '\\' := by
      rintro rfl
      cases tail with
      | nil => exact hb rfl rfl
      | cons d tail => exact hs d tail rfl rfl
    exact (ih ho).cons (.plain c hq hb (by omega))
  | _ => simp at h

theorem fraction_cases (text : List Char) :
    (∀ c ∈ (fraction text).1, c.isDigit = true) ∧
      text = (if (fraction text).1.isEmpty then [] else '.' :: (fraction text).1) ++
        (fraction text).2 := by
  unfold fraction
  split
  · rename_i rest
    dsimp only
    split
    · simp
    · rename_i hd
      refine ⟨fun c hc => List.mem_takeWhile_imp hc, ?_⟩
      simp only [List.cons_append, List.takeWhile_append_dropWhile]
  · simp

theorem sign_cases (text : List Char) :
    ∃ mark : Option Char, (mark = none ∨ mark = some '+' ∨ mark = some '-') ∧
      (sign text).1 = decide (mark = some '-') ∧ text = mark.toList ++ (sign text).2 := by
  unfold sign
  split
  · exact ⟨some '-', by simp, rfl, rfl⟩
  · exact ⟨some '+', by simp, rfl, rfl⟩
  · exact ⟨none, by simp, rfl, rfl⟩

theorem exponent?_cases (text : List Char) :
    ∃ power : Option Power, (exponent? text).1 = power.map Power.value ∧
      text = power.elim [] Power.written ++ (exponent? text).2 := by
  unfold exponent?
  split
  · rename_i mark rest
    split
    · rename_i hm
      obtain ⟨sgn, hsgn, hneg, hrest⟩ := sign_cases rest
      dsimp only
      split
      · exact ⟨none, rfl, rfl⟩
      · rename_i hd
        refine ⟨some ⟨mark, sgn, (sign rest).2.takeWhile Char.isDigit, hm, hsgn, ?_, ?_⟩, ?_, ?_⟩
        · simpa using hd
        · exact fun c hc => List.mem_takeWhile_imp hc
        · simp [Power.value, hneg]
        · simp only [Option.elim_some, Power.written, List.cons_append, List.append_assoc,
            List.takeWhile_append_dropWhile]
          rw [← hrest]
    · exact ⟨none, rfl, rfl⟩
  · exact ⟨none, rfl, rfl⟩

theorem exists_number {start whole text rest : List Char} {negative : Bool} {value : Value}
    (hn : whole ≠ []) (hd : ∀ c ∈ whole, c.isDigit = true)
    (hz : whole.head? = some '0' → whole = ['0'])
    (h : number start negative whole text = (.scalar value, rest)) :
    ∃ n : Number, n.value = .ok value ∧
      n.written ++ rest = (if negative then ['-'] else []) ++ (whole ++ text) := by
  obtain ⟨hf, ht⟩ := fraction_cases text
  obtain ⟨power, hp, hr⟩ := exponent?_cases (fraction text).2
  have hw : Number.written ⟨negative, whole, (fraction text).1, power, hn, hd, hz, hf⟩ ++ rest =
      (if negative then ['-'] else []) ++ (whole ++
        ((if (fraction text).1.isEmpty then [] else '.' :: (fraction text).1) ++
          (power.elim [] Power.written ++ rest))) := by
    simp [Number.written, Number.fractionText, Number.powerText]
  refine ⟨⟨negative, whole, (fraction text).1, power, hn, hd, hz, hf⟩, ?_, ?_⟩
  · have hv := congrArg Prod.fst h
    simp only [number, hp, Option.isNone_map] at hv
    simp only [Number.value]
    split at hv
    · rename_i hi
      rw [if_pos hi]
      split at hv
      · simp at hv
      · rename_i hl
        rw [if_neg hl]
        exact congrArg Except.ok (Token.scalar.inj hv)
    · rename_i hi
      rw [if_neg hi]
      have hp : power.elim 0 Power.value = (power.map Power.value).getD 0 := by
        cases power <;> rfl
      rw [hp]
      exact congrArg Except.ok (Token.scalar.inj hv)
  · have hv : (exponent? (fraction text).2).2 = rest := by
      have hv := congrArg Prod.snd h
      simp only [number] at hv
      split at hv
      · split at hv <;> exact hv
      · exact hv
    rw [hw, ← hv, ← hr, ← ht]

theorem exists_of_number? {start text rest : List Char} {negative : Bool} {value : Value}
    (h : number? start negative text = some (.scalar value, rest)) :
    ∃ n : Number, n.value = .ok value ∧
      n.written ++ rest = (if negative then ['-'] else []) ++ text := by
  unfold number? at h
  split at h
  · simp at h
  · rename_i tail
    have hd : ∀ c ∈ ['0'], c.isDigit = true := List.all_eq_true.mp rfl
    exact exists_number (by simp) hd (fun _ => rfl) (Option.some.inj h)
  · rename_i c tail hc
    split at h
    · rename_i hdigit
      have hd : ∀ d ∈ c :: tail.takeWhile Char.isDigit, d.isDigit = true := by
        rw [List.forall_mem_cons]
        exact ⟨hdigit, fun d hd => List.mem_takeWhile_imp hd⟩
      have hz : (c :: tail.takeWhile Char.isDigit).head? = some '0' →
          c :: tail.takeWhile Char.isDigit = ['0'] := by
        intro hz
        exact absurd (Option.some.inj hz) hc
      obtain ⟨n, hv, hw⟩ := exists_number (by simp) hd hz (Option.some.inj h)
      refine ⟨n, hv, ?_⟩
      rw [hw, List.cons_append, List.takeWhile_append_dropWhile]
    · simp at h

theorem token_of_number? {start text rest : List Char} {negative : Bool} {token : Token}
    (h : number? start negative text = some (token, rest)) :
    (∃ value, token = .scalar value) ∨ ∃ misread, token = .badNumber misread := by
  have hnumber : ∀ {whole text : List Char}, number start negative whole text = (token, rest) →
      (∃ value, token = .scalar value) ∨ ∃ misread, token = .badNumber misread := by
    intro whole text h
    simp only [number] at h
    split at h
    · split at h
      · exact .inr ⟨_, (congrArg Prod.fst h).symm⟩
      · exact .inl ⟨_, (congrArg Prod.fst h).symm⟩
    · exact .inl ⟨_, (congrArg Prod.fst h).symm⟩
  unfold number? at h
  split at h
  · simp at h
  · exact hnumber (Option.some.inj h)
  · split at h
    · exact hnumber (Option.some.inj h)
    · simp at h

/-- The token at the start of a text is a piece of the text, or no state goes on with it. -/
inductive Cut : List Char → Token → List Char → Prop
  | mark (mark : Mark) (rest : List Char) : Cut (mark.char :: rest) mark.token rest
  | text (literal : Literal) (rest : List Char) :
    Cut (literal.written ++ rest) (.text literal.text) rest
  | scalar (scalar : Scalar) (value : Value) (rest : List Char) (hv : scalar.value = .ok value) :
    Cut (scalar.written ++ rest) (.scalar value) rest
  | refused (text : List Char) (token : Token) (rest : List Char)
    (hr : ∀ reading start next, Reading.step reading token start ≠ .ok next) : Cut text token rest

theorem mark_of_punctuation? {c : Char} {token : Token} (h : punctuation? c = some token) :
    ∃ mark : Mark, mark.char = c ∧ mark.token = token := by
  unfold punctuation? at h
  split at h <;> simp only [Option.some.injEq, reduceCtorEq] at h
  · exact ⟨.openObject, rfl, h⟩
  · exact ⟨.closeObject, rfl, h⟩
  · exact ⟨.openArray, rfl, h⟩
  · exact ⟨.closeArray, rfl, h⟩
  · exact ⟨.colon, rfl, h⟩
  · exact ⟨.comma, rfl, h⟩

theorem exists_of_word? {text rest : List Char} {token : Token}
    (h : word? text = some (token, rest)) :
    ∃ word value, (word, value) ∈ words ∧ token = .scalar value ∧ text = word.toList ++ rest := by
  obtain ⟨⟨word, value⟩, hm, hw⟩ := List.exists_of_findSome?_eq_some h
  obtain ⟨tail, ht, he⟩ := Option.map_eq_some_iff.mp hw
  simp only [Prod.mk.injEq] at he
  obtain ⟨rfl, rfl⟩ := he
  exact ⟨word, value, hm, rfl, Text.after?_eq_some_iff.mp ht⟩

theorem step_badText (reading : Reading) (misread : Misread) (start : List Char)
    (next : Reading) : reading.step (.badText misread) start ≠ .ok next := by
  cases reading <;> simp [Reading.step, Reading.valueStep, Reading.keyStep]

theorem step_badNumber (reading : Reading) (misread : Misread) (start : List Char)
    (next : Reading) : reading.step (.badNumber misread) start ≠ .ok next := by
  cases reading <;> simp [Reading.step, Reading.valueStep, Reading.keyStep]

theorem step_stray (reading : Reading) (start : List Char) (next : Reading) :
    reading.step .stray start ≠ .ok next := by
  cases reading <;> simp [Reading.step, Reading.valueStep, Reading.keyStep]

theorem tokenAt_cut (c : Char) (rest : List Char) :
    Cut (c :: rest) (tokenAt c rest).1 (tokenAt c rest).2 := by
  unfold tokenAt
  split
  · rename_i token hp
    obtain ⟨mark, rfl, rfl⟩ := mark_of_punctuation? hp
    exact .mark mark rest
  · split
    · rename_i hq
      split
      · rename_i units tail ht
        obtain ⟨letters, htext, rfl⟩ := spells_of_textUnits ht
        have hw : c :: rest = Literal.written letters ++ tail := by
          rw [hq, htext, Literal.written, List.cons_append, List.append_assoc,
            List.singleton_append]
        rw [hw]
        exact .text letters tail
      · exact .refused _ _ _ (fun reading => step_badText reading _)
    · split
      · rename_i found hf
        obtain ⟨word, value, hm, ht, hw⟩ := exists_of_word? hf
        rw [hw, ht]
        exact .scalar (.word word value hm) value found.2 rfl
      · dsimp only
        cases hn : number? (c :: rest) (decide (c = '-')) (if c = '-' then rest else c :: rest) with
        | none => exact .refused _ _ _ step_stray
        | some found =>
          obtain ⟨token, tail⟩ := found
          obtain ⟨value, rfl⟩ | ⟨misread, rfl⟩ := token_of_number? hn
          · obtain ⟨n, hv, hw⟩ := exists_of_number? hn
            have hw : n.written ++ tail = c :: rest := by
              rw [hw]
              by_cases hm : c = '-' <;> simp [hm]
            rw [← hw]
            exact .scalar (.number n) value tail hv
          · exact .refused _ _ _ (fun reading => step_badNumber reading _)

/-- A piece that is the same in both texts of a document. -/
def Piece.Plain (piece : Piece) : Prop :=
  piece.written = piece.bare

/-- No white space comes next. -/
def Tight (text : List Char) : Prop :=
  ∀ c ∈ text.head?, Text.isJsonSpace c = false

/-- A text starts with plain pieces, at least one of them with a character, and the gap behind
them is among them. -/
structure Starts (text : List Char) (pieces : List Piece) (rest : List Char) : Prop where
  plain : ∀ piece ∈ pieces, piece.Plain
  eq_append : text = pieces.flatMap Piece.bare ++ rest
  tight : Tight rest
  shorter : rest.length < text.length

theorem Starts.append {text middle rest : List Char} {first second : List Piece}
    (h : Starts text first middle) (h' : Starts middle second rest) :
    Starts text (first ++ second) rest := by
  refine ⟨?_, ?_, h'.tight, h'.shorter.trans h.shorter⟩
  · rw [List.forall_mem_append]
    exact ⟨h.plain, h'.plain⟩
  · rw [List.flatMap_append, List.append_assoc, ← h'.eq_append, ← h.eq_append]

theorem exists_gap (text : List Char) :
    ∃ (fillers : Gap) (rest : List Char), (∀ piece ∈ Piece.gap fillers, piece.Plain) ∧
      text = (Piece.gap fillers).flatMap Piece.bare ++ rest ∧ Tight rest := by
  induction text with
  | nil => exact ⟨[], [], by simp [Piece.gap], rfl, by simp [Tight]⟩
  | cons c text ih =>
    cases hc : Text.isJsonSpace c with
    | false =>
      refine ⟨[], c :: text, by simp [Piece.gap], rfl, ?_⟩
      simpa [Tight] using hc
    | true =>
      obtain ⟨fillers, rest, hp, he, hr⟩ := ih
      refine ⟨.blank c hc :: fillers, rest, ?_, ?_, hr⟩
      · rw [Piece.gap, List.map_cons, List.forall_mem_cons]
        exact ⟨rfl, hp⟩
      · rw [he]
        rfl

theorem tokens_of_tight {c : Char} {rest : List Char} (ht : Tight (c :: rest)) :
    tokens (c :: rest) = ((tokenAt c rest).1, c :: rest) :: tokens (tokenAt c rest).2 :=
  tokens_cons (ht c rfl) rest

theorem outcome_cases {reading : Reading} {text : List Char} {value : Value} (ht : Tight text)
    (h : outcome reading text = .ok value) :
    (text = [] ∧ reading = .finished value) ∨
    ∃ (token : Token) (after : Gap) (rest : List Char) (next : Reading),
      Cut text token ((Piece.gap after).flatMap Piece.bare ++ rest) ∧
      (∀ piece ∈ Piece.gap after, piece.Plain) ∧ Tight rest ∧ rest.length < text.length ∧
      reading.step token text = .ok next ∧ outcome next rest = .ok value ∧
      ∀ other : Reading, other.step token text = .ok next → outcome other text = .ok value := by
  cases text with
  | nil =>
    rw [outcome, tokens_eq_of_dropWhile] at h
    cases reading with
    | finished found => exact .inl ⟨rfl, congrArg Reading.finished (Except.ok.inj h)⟩
    | _ => cases h
  | cons c text =>
    have ho := fun other => outcome_of_tokens other (tokens_of_tight ht)
    rw [ho] at h
    have hc := tokenAt_cut c text
    have hl := length_tokenAt c text
    obtain ⟨after, rest, hp, he, hr⟩ := exists_gap (tokenAt c text).2
    rw [he] at hc hl
    simp only [he, outcome_gap] at h ho
    cases hs : reading.step (tokenAt c text).1 (c :: text) with
    | error misread =>
      rw [hs] at h
      cases h
    | ok next =>
      rw [hs] at h
      rw [List.length_append] at hl
      have hlt : rest.length < (c :: text).length := by rw [List.length_cons]; omega
      refine .inr ⟨_, after, rest, next, hc, hp, hr, hlt, hs, h, ?_⟩
      intro other hs'
      rw [ho, hs']
      exact h

/-- A punctuation mark comes next, and the run goes on from `reading` behind it. -/
def Goes (text : List Char) (mark : Mark) (reading : Reading) (value : Value) : Prop :=
  ∃ (after : Gap) (rest : List Char), Starts text (.mark mark :: Piece.gap after) rest ∧
    outcome reading rest = .ok value

variable {text : List Char} {value : Value} {outer : List Frame}

theorem Cut.eq_cons {mark : Mark} {rest start : List Char} {reading next : Reading}
    (hc : Cut text mark.token rest) (hs : reading.step mark.token start = .ok next) :
    text = mark.char :: rest := by
  generalize ht : mark.token = token at hc
  cases hc with
  | mark other =>
    have hm : mark = other := by cases mark <;> cases other <;> simp_all [Mark.token]
    rw [hm]
  | text literal => cases mark <;> simp [Mark.token] at ht
  | scalar scalar => cases mark <;> simp [Mark.token] at ht
  | refused _ _ _ hr => exact absurd (ht ▸ hs) (hr _ _ _)

theorem goes_of_cut {rest : List Char} {mark : Mark} {after : Gap} {reading next : Reading}
    (hc : Cut text mark.token ((Piece.gap after).flatMap Piece.bare ++ rest))
    (hs : reading.step mark.token text = .ok next)
    (hp : ∀ piece ∈ Piece.gap after, piece.Plain) (hr : Tight rest)
    (hl : rest.length < text.length) (h : outcome next rest = .ok value) :
    Goes text mark next value := by
  refine ⟨after, rest, ⟨?_, ?_, hr, hl⟩, h⟩
  · rw [List.forall_mem_cons]
    exact ⟨rfl, hp⟩
  · rw [flatMap_bare_mark]
    exact hc.eq_cons hs

/-- Between values only punctuation moves the reader on. -/
theorem exists_goes {reading : Reading} (ht : Tight text) (h : outcome reading text = .ok value)
    (hf : reading ≠ .finished value)
    (hm : ∀ token next, reading.step token text = .ok next → ∃ mark : Mark, token = mark.token) :
    ∃ (mark : Mark) (next : Reading),
      reading.step mark.token text = .ok next ∧ Goes text mark next value := by
  obtain ⟨-, he⟩ | ⟨token, after, rest, next, hc, hp, hr, hl, hs, hn, -⟩ := outcome_cases ht h
  · exact absurd he hf
  · obtain ⟨mark, rfl⟩ := hm token next hs
    exact ⟨mark, next, hs, goes_of_cut hc hs hp hr hl hn⟩

/-- A state that differs from another one only in that it can be closed. -/
theorem goes_or_outcome {reading other : Reading} (mark : Mark) (ht : Tight text)
    (h : outcome reading text = .ok value) (hf : reading ≠ .finished value)
    (hm : ∀ token, token = mark.token ∨ reading.step token text = other.step token text) :
    (∃ next, reading.step mark.token text = .ok next ∧ Goes text mark next value) ∨
      outcome other text = .ok value := by
  obtain ⟨-, he⟩ | ⟨token, after, rest, next, hc, hp, hr, hl, hs, hn, ho⟩ := outcome_cases ht h
  · exact absurd he hf
  · rcases hm token with rfl | he
    · exact .inl ⟨next, hs, goes_of_cut hc hs hp hr hl hn⟩
    · exact .inr (ho other (he ▸ hs))

theorem cases_wantsValue (ht : Tight text) (h : outcome (.wantsValue outer) text = .ok value) :
    (∃ (element : Element) (found : Value) (rest : List Char), Starts text element.pieces rest ∧
      element.value = .ok found ∧ outcome (.close found outer) rest = .ok value) ∨
    Goes text .openArray (.wantsFirstItem outer) value ∨
    Goes text .openObject (.wantsFirstKey outer) value := by
  obtain ⟨-, hf⟩ | ⟨token, after, rest, next, hc, hp, hr, hl, hs, hn, -⟩ := outcome_cases ht h
  · simp at hf
  generalize he : (Piece.gap after).flatMap Piece.bare ++ rest = tail at hc
  cases hc with
  | mark mark =>
    subst he
    have hg := goes_of_cut (.mark mark _) hs hp hr hl hn
    cases mark <;> simp only [Reading.step, Reading.valueStep, Mark.token, Except.ok.injEq,
      reduceCtorEq] at hs
    · subst hs
      exact .inr (.inr hg)
    · subst hs
      exact .inr (.inl hg)
  | text literal =>
    subst he
    obtain rfl := Except.ok.inj hs
    refine .inl ⟨.text literal after, _, rest, ⟨?_, ?_, hr, hl⟩, rfl, hn⟩
    · rw [Element.pieces, List.forall_mem_cons]
      exact ⟨rfl, hp⟩
    · rw [Element.pieces, flatMap_bare_cons, Piece.bare]
  | scalar scalar found _ hv =>
    subst he
    obtain rfl := Except.ok.inj hs
    refine .inl ⟨.scalar scalar after, found, rest, ⟨?_, ?_, hr, hl⟩, hv, hn⟩
    · rw [Element.pieces, List.forall_mem_cons]
      exact ⟨rfl, hp⟩
    · rw [Element.pieces, flatMap_bare_cons, Piece.bare]
  | refused _ _ _ hr => exact absurd hs (hr _ _ _)

theorem cases_wantsFirstItem (ht : Tight text)
    (h : outcome (.wantsFirstItem outer) text = .ok value) :
    Goes text .closeArray (.close (.array []) outer) value ∨
    outcome (.wantsValue (.items [] :: outer)) text = .ok value := by
  have hm : ∀ token, token = Mark.closeArray.token ∨ (Reading.wantsFirstItem outer).step token text
      = (Reading.wantsValue (.items [] :: outer)).step token text := by
    intro token
    cases token with
    | closeArray => exact .inl rfl
    | _ => exact .inr rfl
  obtain ⟨next, hs, hg⟩ | ho := goes_or_outcome .closeArray ht h (by simp) hm
  · obtain rfl := Except.ok.inj hs
    exact .inl hg
  · exact .inr ho

theorem cases_wantsFirstKey (ht : Tight text)
    (h : outcome (.wantsFirstKey outer) text = .ok value) :
    Goes text .closeObject (.close (.object []) outer) value ∨
    outcome (.wantsKey [] outer) text = .ok value := by
  have hm : ∀ token, token = Mark.closeObject.token ∨ (Reading.wantsFirstKey outer).step token text
      = (Reading.wantsKey [] outer).step token text := by
    intro token
    cases token with
    | closeObject => exact .inl rfl
    | _ => exact .inr rfl
  obtain ⟨next, hs, hg⟩ | ho := goes_or_outcome .closeObject ht h (by simp) hm
  · obtain rfl := Except.ok.inj hs
    exact .inl hg
  · exact .inr ho

theorem cases_afterItem {found : List Value} (ht : Tight text)
    (h : outcome (.afterItem found outer) text = .ok value) :
    Goes text .comma (.wantsValue (.items found :: outer)) value ∨
    Goes text .closeArray (.close (.array found.reverse) outer) value := by
  have hm : ∀ token next, (Reading.afterItem found outer).step token text = .ok next →
      ∃ mark : Mark, token = mark.token := by
    intro token next hs
    cases token with
    | comma => exact ⟨.comma, rfl⟩
    | closeArray => exact ⟨.closeArray, rfl⟩
    | _ => simp [Reading.step] at hs
  obtain ⟨mark, next, hs, hg⟩ := exists_goes ht h (by simp) hm
  cases mark with
  | comma =>
    obtain rfl := Except.ok.inj hs
    exact .inl hg
  | closeArray =>
    obtain rfl := Except.ok.inj hs
    exact .inr hg
  | _ => simp [Reading.step, Mark.token] at hs

theorem cases_afterMember {found : Entries Value} (ht : Tight text)
    (h : outcome (.afterMember found outer) text = .ok value) :
    Goes text .comma (.wantsKey found outer) value ∨
    Goes text .closeObject (.close (.object found) outer) value := by
  have hm : ∀ token next, (Reading.afterMember found outer).step token text = .ok next →
      ∃ mark : Mark, token = mark.token := by
    intro token next hs
    cases token with
    | comma => exact ⟨.comma, rfl⟩
    | closeObject => exact ⟨.closeObject, rfl⟩
    | _ => simp [Reading.step] at hs
  obtain ⟨mark, next, hs, hg⟩ := exists_goes ht h (by simp) hm
  cases mark with
  | comma =>
    obtain rfl := Except.ok.inj hs
    exact .inl hg
  | closeObject =>
    obtain rfl := Except.ok.inj hs
    exact .inr hg
  | _ => simp [Reading.step, Mark.token] at hs

theorem goes_of_wantsColon {found : Entries Value} {key : String} (ht : Tight text)
    (h : outcome (.wantsColon found key outer) text = .ok value) :
    Goes text .colon (.wantsValue (.member found key :: outer)) value := by
  have hm : ∀ token next, (Reading.wantsColon found key outer).step token text = .ok next →
      ∃ mark : Mark, token = mark.token := by
    intro token next hs
    cases token with
    | colon => exact ⟨.colon, rfl⟩
    | _ => simp [Reading.step] at hs
  obtain ⟨mark, next, hs, hg⟩ := exists_goes ht h (by simp) hm
  cases mark with
  | colon =>
    obtain rfl := Except.ok.inj hs
    exact hg
  | _ => simp [Reading.step, Mark.token] at hs

theorem cases_wantsKey {found : Entries Value} (ht : Tight text)
    (h : outcome (.wantsKey found outer) text = .ok value) :
    ∃ (key : Literal) (afterKey afterColon : Gap) (rest : List Char),
      Starts text (.text key :: (Piece.gap afterKey ++ .mark .colon :: Piece.gap afterColon)) rest ∧
      outcome (.wantsValue (.member found key.text :: outer)) rest = .ok value := by
  obtain ⟨-, hf⟩ | ⟨token, after, rest, next, hc, hp, hr, hl, hs, hn, -⟩ := outcome_cases ht h
  · simp at hf
  generalize he : (Piece.gap after).flatMap Piece.bare ++ rest = tail at hc
  cases hc with
  | mark mark => cases mark <;> simp [Reading.step, Reading.keyStep, Mark.token] at hs
  | text key =>
    subst he
    obtain rfl := Except.ok.inj hs
    obtain ⟨afterColon, rest', hcolon, hrest⟩ := goes_of_wantsColon hr hn
    have hkey : Starts (key.written ++ ((Piece.gap after).flatMap Piece.bare ++ rest))
        (.text key :: Piece.gap after) rest := by
      refine ⟨?_, ?_, hr, hl⟩
      · rw [List.forall_mem_cons]
        exact ⟨rfl, hp⟩
      · rw [flatMap_bare_cons, Piece.bare]
    exact ⟨key, after, afterColon, rest', hkey.append hcolon, hrest⟩
  | scalar => simp [Reading.step, Reading.keyStep] at hs
  | refused _ _ _ hr => exact absurd hs (hr _ _ _)

mutual

/-- The pieces of a value, and the value. -/
theorem exists_element {text : List Char} {outer : List Frame} {value : Value} (ht : Tight text)
    (h : outcome (.wantsValue outer) text = .ok value) :
    ∃ (element : Element) (found : Value) (rest : List Char), Starts text element.pieces rest ∧
      element.value = .ok found ∧ outcome (.close found outer) rest = .ok value := by
  obtain he | ⟨inside, middle, hopen, hm⟩ | ⟨inside, middle, hopen, hm⟩ := cases_wantsValue ht h
  · exact he
  · have := hopen.shorter
    obtain ⟨after, rest, hclose, hr⟩ | hi := cases_wantsFirstItem hopen.tight hm
    · exact ⟨.emptyArray inside after, _, rest, hopen.append hclose, rfl, hr⟩
    · obtain ⟨items, values, after, rest, hitems, hv, hr⟩ := exists_items hopen.tight hi
      refine ⟨.array inside items after, .array values, rest, hopen.append hitems, ?_, hr⟩
      rw [Element.value, hv]
      rfl
  · have := hopen.shorter
    obtain ⟨after, rest, hclose, hr⟩ | hi := cases_wantsFirstKey hopen.tight hm
    · exact ⟨.emptyObject inside after, _, rest, hopen.append hclose, rfl, hr⟩
    · obtain ⟨members, entries, after, rest, hmembers, hv, hr⟩ := exists_members hopen.tight hi
      refine ⟨.object inside members after, _, rest, hopen.append hmembers, ?_, hr⟩
      rw [Element.value, hv]
      rfl
termination_by (text.length, 0)

theorem exists_items {text : List Char} {found : List Value} {outer : List Frame} {value : Value}
    (ht : Tight text) (h : outcome (.wantsValue (.items found :: outer)) text = .ok value) :
    ∃ (items : Items) (values : List Value) (after : Gap) (rest : List Char),
      Starts text (items.pieces ++ .mark .closeArray :: Piece.gap after) rest ∧
      items.values = .ok values ∧
      outcome (.close (.array (found.reverse ++ values)) outer) rest = .ok value := by
  obtain ⟨item, first, middle, hitem, hv, hm⟩ := exists_element ht h
  have := hitem.shorter
  obtain ⟨after, behind, hcomma, hb⟩ | ⟨after, rest, hclose, hr⟩ :=
    cases_afterItem hitem.tight hm
  · have := hcomma.shorter
    obtain ⟨others, values, afterAll, rest, hothers, hvs, hr⟩ := exists_items hcomma.tight hb
    refine ⟨.more item after others, first :: values, afterAll, rest, ?_, ?_, ?_⟩
    · simpa [Items.pieces] using hitem.append (hcomma.append hothers)
    · rw [Items.values, hv, hvs]
      rfl
    · simpa using hr
  · refine ⟨.last item none, [first], after, rest, ?_, ?_, ?_⟩
    · simpa [Items.pieces, Piece.extra] using hitem.append hclose
    · rw [Items.values, hv]
      rfl
    · simpa using hr
termination_by (text.length, 1)

theorem exists_members {text : List Char} {found : Entries Value} {outer : List Frame}
    {value : Value} (ht : Tight text) (h : outcome (.wantsKey found outer) text = .ok value) :
    ∃ (members : Members) (entries : List (String × Value)) (after : Gap) (rest : List Char),
      Starts text (members.pieces ++ .mark .closeObject :: Piece.gap after) rest ∧
      members.entries = .ok entries ∧
      outcome (.close (.object (entries.foldl (fun acc entry => Entries.set entry.1 entry.2 acc)
        found)) outer) rest = .ok value := by
  obtain ⟨key, afterKey, afterColon, start, hkey, hs⟩ := cases_wantsKey ht h
  have := hkey.shorter
  obtain ⟨element, first, middle, helement, hv, hm⟩ := exists_element hkey.tight hs
  have := helement.shorter
  obtain ⟨after, behind, hcomma, hb⟩ | ⟨after, rest, hclose, hr⟩ :=
    cases_afterMember helement.tight hm
  · have := hcomma.shorter
    obtain ⟨others, entries, afterAll, rest, hothers, hvs, hr⟩ := exists_members hcomma.tight hb
    refine ⟨.more key afterKey afterColon element after others, (key.text, first) :: entries,
      afterAll, rest, ?_, ?_, hr⟩
    · simpa [Members.pieces] using hkey.append (helement.append (hcomma.append hothers))
    · rw [Members.entries, hv, hvs]
      rfl
  · refine ⟨.last key afterKey afterColon element none, [(key.text, first)], after, rest, ?_, ?_,
      hr⟩
    · simpa [Members.pieces, Piece.extra] using hkey.append (helement.append hclose)
    · rw [Members.entries, hv]
      rfl
termination_by (text.length, 0)

end

theorem eq_of_outcome_finished {text : List Char} {found value : Value} (ht : Tight text)
    (h : outcome (.finished found) text = .ok value) : text = [] ∧ found = value := by
  obtain ⟨he, hf⟩ | ⟨token, after, rest, next, -, -, -, -, hs, -⟩ := outcome_cases ht h
  · exact ⟨he, Reading.finished.inj hf⟩
  · simp [Reading.step] at hs

/-- A document in which there is nothing to strip. -/
def Document.Plain (document : Document) : Prop :=
  (∀ piece ∈ document.pieces, piece.Plain) ∧ document.ending = none

theorem Document.bare_of_plain {document : Document} (h : document.Plain) :
    document.bare = document.written := by
  have hp : document.pieces.map Piece.bare = document.pieces.map Piece.written :=
    List.map_congr_left fun piece hm => (h.1 piece hm).symm
  rw [Document.bare, Document.written, Document.endingText, h.2, List.flatMap_def, hp,
    ← List.flatMap_def, Option.elim_none, List.append_nil]

/-- Every text that is read is the text of a plain document with the value that was read. -/
theorem exists_document {text : List Char} {value : Value} (h : read text = .ok value) :
    ∃ document : Document,
      document.Plain ∧ document.written = text ∧ document.value = .ok value := by
  have hb : text.head? ≠ some '\uFEFF' := by
    intro hb
    obtain ⟨rest, rfl⟩ : ∃ rest, text = '\uFEFF' :: rest := by
      cases text with
      | nil => simp at hb
      | cons c rest => exact ⟨rest, by simpa using hb⟩
    cases h
  have ho : outcome (.wantsValue []) text = .ok value := by
    rw [← read_eq_outcome hb, h]
    rfl
  obtain ⟨before, middle, hp, rfl, ht⟩ := exists_gap text
  rw [outcome_gap] at ho
  obtain ⟨root, found, rest, hroot, hv, hr⟩ := exists_element ht ho
  obtain ⟨rfl, rfl⟩ := eq_of_outcome_finished hroot.tight hr
  have hplain : Document.Plain ⟨before, root, none⟩ := by
    refine ⟨?_, rfl⟩
    rw [Document.pieces, List.forall_mem_append]
    exact ⟨hp, hroot.plain⟩
  refine ⟨⟨before, root, none⟩, hplain, ?_, hv⟩
  rw [← Document.bare_of_plain hplain, Document.bare, Document.pieces, List.flatMap_append,
    hroot.eq_append, List.append_nil]

theorem error_of_bind {α β : Type} {first : Except Fault α} {next : α → Except Fault β}
    {fault : Fault} (h : first >>= next = .error fault) :
    first = .error fault ∨ ∃ found, first = .ok found ∧ next found = .error fault := by
  cases first with
  | error other =>
    cases h
    exact .inl rfl
  | ok found => exact .inr ⟨found, rfl, h⟩

mutual

/-- A value is only refused for an integer with too many digits. -/
theorem Element.longInteger_of_value {fault : Fault} :
    ∀ element : Element, element.value = .error fault →
      ∃ digits > maxIntegerDigits, fault = .longInteger digits
  | .scalar (.number n) after, h => by
    simp only [Element.value, Scalar.value, Number.value] at h
    split at h
    · split at h
      · rename_i hl
        exact ⟨n.whole.length, hl, (Except.error.inj h).symm⟩
      · simp at h
    · simp at h
  | .scalar (.word _ _ _) _, h => by simp [Element.value, Scalar.value] at h
  | .text _ _, h => by simp [Element.value] at h
  | .emptyArray _ _, h => by simp [Element.value] at h
  | .array _ items _, h => by
    rw [Element.value] at h
    obtain hi | ⟨values, -, hn⟩ := error_of_bind h
    · exact items.longInteger_of_values hi
    · cases hn
  | .emptyObject _ _, h => by simp [Element.value] at h
  | .object _ members _, h => by
    rw [Element.value] at h
    obtain hm | ⟨entries, -, hn⟩ := error_of_bind h
    · exact members.longInteger_of_entries hm
    · cases hn

theorem Items.longInteger_of_values {fault : Fault} :
    ∀ items : Items, items.values = .error fault →
      ∃ digits > maxIntegerDigits, fault = .longInteger digits
  | .last item _, h => by
    rw [Items.values] at h
    obtain hi | ⟨value, -, hn⟩ := error_of_bind h
    · exact item.longInteger_of_value hi
    · cases hn
  | .more item _ others, h => by
    rw [Items.values] at h
    obtain hi | ⟨value, -, hn⟩ := error_of_bind h
    · exact item.longInteger_of_value hi
    obtain ho | ⟨values, -, hn⟩ := error_of_bind hn
    · exact others.longInteger_of_values ho
    · cases hn

theorem Members.longInteger_of_entries {fault : Fault} :
    ∀ members : Members, members.entries = .error fault →
      ∃ digits > maxIntegerDigits, fault = .longInteger digits
  | .last _ _ _ value _, h => by
    rw [Members.entries] at h
    obtain hv | ⟨found, -, hn⟩ := error_of_bind h
    · exact value.longInteger_of_value hv
    · cases hn
  | .more _ _ _ value _ others, h => by
    rw [Members.entries] at h
    obtain hv | ⟨found, -, hn⟩ := error_of_bind h
    · exact value.longInteger_of_value hv
    obtain ho | ⟨entries, -, hn⟩ := error_of_bind hn
    · exact others.longInteger_of_entries ho
    · cases hn

end

/-- Stripping takes from every document exactly its comments and extra commas, and what is left
reads as the value of the document, which is only refused for an integer with too many digits. A
document in which there is nothing to strip is left as it is, and so is every text that can be
read. -/
theorem stripComments_exact :
    (∀ document : Document,
      stripComments document.written = document.bare ∧
      (read (stripComments document.written)).mapError ReadError.fault = document.value ∧
      ∀ fault, document.value = .error fault →
        ∃ digits > maxIntegerDigits, fault = .longInteger digits) ∧
    (∀ document : Document, document.Plain →
      stripComments document.written = document.written) ∧
    ∀ (text : List Char) (value : Value), read text = .ok value → stripComments text = text := by
  have hplain : ∀ document : Document, document.Plain →
      stripComments document.written = document.written := by
    intro document hp
    rw [stripComments_written, Document.bare_of_plain hp]
  refine ⟨?_, hplain, ?_⟩
  · intro document
    refine ⟨stripComments_written document, ?_, ?_⟩
    · rw [stripComments_written, document.read_bare]
    · intro fault h
      exact document.root.longInteger_of_value h
  · intro text value h
    obtain ⟨document, hp, rfl, -⟩ := exists_document h
    exact hplain document hp

/-- A number of one digit. -/
def digitNumber (c : Char) (hc : c.isDigit = true) : Number :=
  ⟨false, [c], [], none, by simp, by simpa using hc, by simp, by simp⟩

/-- A list over two lines, with a comment behind each of its commas. -/
def commentedList : Document :=
  ⟨[], .array []
    (.more (.scalar (.number (digitNumber '1' rfl)) [])
      [.blank ' ' rfl, .line " one".toList (by decide), .blank ' ' rfl]
      (.last (.scalar (.number (digitNumber '2' rfl)) [.blank ' ' rfl])
        (some [.block " two ".toList (by decide)]))) [], none⟩

theorem stripComments_exact_list :
    commentedList.written = "[1, // one\n 2 ,/* two */]".toList ∧
      stripComments commentedList.written = "[1, \n 2 ]".toList ∧
      (read (stripComments commentedList.written)).mapError ReadError.fault =
        .ok (.array [.integer 1, .integer 2]) := by
  obtain ⟨hs, hr, -⟩ := stripComments_exact.1 commentedList
  exact ⟨rfl, hs.trans rfl, hr.trans rfl⟩

end ImportAlias.Json
