/-!
# Occurrences in a text

Texts are searched as lists of characters. Every function here splits its
input into named pieces, and the lemma next to it states which: what follows a
fixed start, what precedes the last occurrence of a mark, whether a mark occurs
at all, and a text with the first occurrence of one letter exchanged.
-/

namespace ImportAlias.Text

variable {α : Type} [DecidableEq α]

/-- What follows `start` in a text that begins with it. -/
def after? : List α → List α → Option (List α)
  | [], text => some text
  | _ :: _, [] => none
  | a :: start, c :: text => if a = c then after? start text else none

theorem after?_eq_some_iff {start text rest : List α} :
    after? start text = some rest ↔ text = start ++ rest := by
  induction start generalizing text with
  | nil => simp [after?]
  | cons a start ih =>
    cases text with
    | nil => simp [after?]
    | cons c text => by_cases h : a = c <;> simp [after?, h, ih, eq_comm]

/-- Whether `mark` occurs somewhere in the text. -/
def occurs (mark : List α) : List α → Bool
  | [] => mark.isEmpty
  | c :: text => mark.isPrefixOf (c :: text) || occurs mark text

theorem occurs_iff {mark text : List α} : occurs mark text = true ↔ mark <:+: text := by
  induction text with
  | nil => simp [occurs]
  | cons c text ih => simp [occurs, ih, List.infix_cons_iff]

/-- What precedes the last occurrence of `mark`. An empty mark occurs last at the very end. -/
def beforeLast? (mark : List α) : List α → Option (List α)
  | [] => if mark.isEmpty then some [] else none
  | c :: text =>
    match beforeLast? mark text with
    | some found => some (c :: found)
    | none => if mark.isPrefixOf (c :: text) then some [] else none

@[simp] theorem beforeLast?_nil_left (text : List α) : beforeLast? [] text = some text := by
  induction text with
  | nil => rfl
  | cons c text ih => simp [beforeLast?, ih]

theorem beforeLast?_eq_none_iff {mark text : List α} :
    beforeLast? mark text = none ↔ ¬ mark <:+: text := by
  induction text with
  | nil => cases mark <;> simp [beforeLast?]
  | cons c text ih =>
    cases h : beforeLast? mark text with
    | none =>
      have hn := ih.mp h
      simp [beforeLast?, h, List.infix_cons_iff, hn]
    | some found =>
      have hi : mark <:+: text := Decidable.byContradiction fun hn => by
        simp [ih.mpr hn] at h
      simp [beforeLast?, h, List.infix_cons_iff, hi]

theorem eq_append_of_beforeLast? {mark text found : List α}
    (h : beforeLast? mark text = some found) : ∃ rest, text = found ++ mark ++ rest := by
  induction text generalizing found with
  | nil => cases mark <;> simp_all [beforeLast?]
  | cons c text ih =>
    cases hb : beforeLast? mark text with
    | none =>
      simp only [beforeLast?, hb, Option.ite_none_right_eq_some, Option.some.injEq] at h
      obtain ⟨hp, rfl⟩ := h
      obtain ⟨rest, hr⟩ := List.isPrefixOf_iff_prefix.mp hp
      exact ⟨rest, by simpa using hr.symm⟩
    | some earlier =>
      simp only [beforeLast?, hb, Option.some.injEq] at h
      obtain ⟨rest, hr⟩ := ih hb
      exact ⟨rest, by simp [← h, hr]⟩

/-- The text with the first `letter` exchanged for `fresh`; what was put in is not searched
again. -/
def replaceFirst (letter : α) (fresh : List α) : List α → List α
  | [] => []
  | c :: text => if c = letter then fresh ++ text else c :: replaceFirst letter fresh text

theorem replaceFirst_of_not_mem {letter : α} {text : List α} (fresh : List α)
    (h : letter ∉ text) : replaceFirst letter fresh text = text := by
  induction text with
  | nil => rfl
  | cons c text ih =>
    have hc : c ≠ letter := fun e => h (by simp [e])
    simp [replaceFirst, hc, ih fun hm => h (List.mem_cons_of_mem _ hm)]

theorem replaceFirst_append_cons {letter : α} {before : List α} (fresh rest : List α)
    (h : letter ∉ before) :
    replaceFirst letter fresh (before ++ letter :: rest) = before ++ fresh ++ rest := by
  induction before with
  | nil => simp [replaceFirst]
  | cons c before ih =>
    have hc : c ≠ letter := fun e => h (by simp [e])
    simp [replaceFirst, hc, ih fun hm => h (List.mem_cons_of_mem _ hm)]

omit [DecidableEq α] in
theorem length_dropWhile_le (p : α → Bool) (text : List α) :
    (text.dropWhile p).length ≤ text.length :=
  (List.dropWhile_suffix p).length_le

end ImportAlias.Text
