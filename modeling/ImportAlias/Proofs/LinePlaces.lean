import ImportAlias.Proofs.Unstripping
import ImportAlias.Settings.Extends

/-!
# Where stripping leaves the lines

A text is refused at a place of what stripping leaves of it, and the error names
the line of that place. Stripping deletes from the text that its user sees, so
each character is marked here with what becomes of it. Line comments end in front
of their line break and trailing commas have none, so only block comments take
lines away: an error points to its line in the file exactly when no line break in
a block comment stands in front of it.
-/

namespace ImportAlias.Json

/-- What becomes of a character: it is kept or deleted with what it is a part of. -/
inductive Fate where
  | kept
  | lineComment
  | blockComment
  | trailingComma
  deriving DecidableEq

/-- A text with the fate of each character. -/
abbrev Marked := List (Char × Fate)

namespace Marked

/-- The text that is marked. -/
def source (marked : Marked) : List Char :=
  marked.map (·.1)

/-- What is left of it. -/
def left (marked : Marked) : List Char :=
  (marked.filter (·.2 = .kept)).map (·.1)

/-- Characters of one fate. -/
def all (fate : Fate) (chars : List Char) : Marked :=
  chars.map fun c => (c, fate)

variable (marked other : Marked) (fate : Fate) (chars : List Char) (c : Char)

@[simp] theorem source_cons : source ((c, fate) :: marked) = c :: source marked := rfl

@[simp] theorem source_append : source (marked ++ other) = source marked ++ source other :=
  List.map_append

@[simp] theorem source_all : source (all fate chars) = chars := by
  simp [source, all, Function.comp_def]

@[simp] theorem left_kept : left ((c, .kept) :: marked) = c :: left marked := rfl

theorem left_deleted {fate : Fate} (h : fate ≠ .kept) :
    left ((c, fate) :: marked) = left marked := by
  simp [left, h]

@[simp] theorem left_append : left (marked ++ other) = left marked ++ left other := by
  simp [left]

@[simp] theorem left_all_kept : left (all .kept chars) = chars := by
  induction chars with
  | nil => rfl
  | cons c chars ih => exact congrArg (c :: ·) ih

theorem left_all_deleted {fate : Fate} (h : fate ≠ .kept) : left (all fate chars) = [] := by
  induction chars with
  | nil => rfl
  | cons c chars ih => exact (left_deleted (all fate chars) c h).trans ih

/-- A text that is composed of characters that are kept, comments and trailing commas. -/
inductive Composed : Marked → Prop
  | nil : Composed []
  | kept {rest : Marked} (c : Char) : Composed rest → Composed ((c, .kept) :: rest)
  | comma {rest : Marked} : Composed rest → Composed ((',', .trailingComma) :: rest)
  | line {rest : Marked} {body : List Char} : '\n' ∉ body → Composed rest →
      Composed (all .lineComment ('/' :: '/' :: body) ++ rest)
  | block {rest : Marked} {body : List Char} : ¬ ['*', '/'] <:+: body → Composed rest →
      Composed (all .blockComment ('/' :: '*' :: (body ++ ['*', '/'])) ++ rest)

/-- Line breaks are kept, unless a block comment takes them away. -/
def LosesInBlocks (marked : Marked) : Prop :=
  ∀ fate, ('\n', fate) ∈ marked → fate = .kept ∨ fate = .blockComment

variable {marked other fate chars c}

theorem mem_all_iff {found : Char × Fate} :
    found ∈ all fate chars ↔ found.1 ∈ chars ∧ found.2 = fate := by
  obtain ⟨c, other⟩ := found
  simp [all, eq_comm]

/-- No piece of a text but a block comment has a line break in it and is deleted. -/
theorem Composed.losesInBlocks (h : marked.Composed) : marked.LosesInBlocks := by
  intro fate hm
  induction h with
  | nil => cases hm
  | kept c _ ih =>
    obtain he | hm := List.mem_cons.mp hm
    · exact .inl (Prod.mk.inj he).2
    · exact ih hm
  | comma _ ih =>
    obtain he | hm := List.mem_cons.mp hm
    · exact absurd (Prod.mk.inj he).1 (by decide)
    · exact ih hm
  | line hb _ ih =>
    obtain hm | hm := List.mem_append.mp hm
    · have hline := (mem_all_iff.mp hm).1
      exact absurd hline (by simpa using hb)
    · exact ih hm
  | block _ _ ih =>
    obtain hm | hm := List.mem_append.mp hm
    · exact .inr (mem_all_iff.mp hm).2
    · exact ih hm

theorem Composed.append_kept (h : marked.Composed) (chars : List Char) :
    Composed (all .kept chars ++ marked) := by
  induction chars with
  | nil => exact h
  | cons c chars ih => exact .kept c ih

/-- The lines of a text are those of what is left of it and those that block comments take away. -/
theorem LosesInBlocks.count_source (h : marked.LosesInBlocks) :
    (source marked).count '\n' = (left marked).count '\n' + marked.count ('\n', .blockComment) := by
  induction marked with
  | nil => rfl
  | cons mark marked ih =>
    obtain ⟨c, fate⟩ := mark
    have hrest := ih fun found hm => h found (List.mem_cons_of_mem _ hm)
    rw [source_cons]
    by_cases hc : c = '\n'
    · subst hc
      obtain rfl | rfl := h fate List.mem_cons_self
      · rw [left_kept, List.count_cons_self, List.count_cons_self, hrest,
          List.count_cons_of_ne (by simp)]
        omega
      · rw [left_deleted _ _ (by simp), List.count_cons_self, List.count_cons_self, hrest]
        omega
    · have hmark : (c, fate) ≠ ('\n', .blockComment) := fun he => hc (Prod.mk.inj he).1
      rw [List.count_cons_of_ne hc, List.count_cons_of_ne hmark, hrest]
      by_cases hk : fate = .kept
      · rw [hk, left_kept, List.count_cons_of_ne hc]
      · rw [left_deleted _ _ hk]

theorem exists_split {place : Nat} (h : place < (left marked).length) :
    ∃ before c after, marked = before ++ (c, .kept) :: after ∧
      left before = (left marked).take place := by
  induction marked generalizing place with
  | nil => exact absurd h (Nat.not_lt_zero place)
  | cons mark marked ih =>
    obtain ⟨c, fate⟩ := mark
    by_cases hk : fate = .kept
    · subst hk
      rw [left_kept] at h ⊢
      cases place with
      | zero => exact ⟨[], c, marked, rfl, rfl⟩
      | succ place =>
        obtain ⟨before, d, after, rfl, hleft⟩ := ih (Nat.lt_of_succ_lt_succ h)
        exact ⟨(c, .kept) :: before, d, after, rfl, congrArg (c :: ·) hleft⟩
    · rw [left_deleted _ _ hk] at h ⊢
      obtain ⟨before, d, after, rfl, hleft⟩ := ih h
      exact ⟨(c, fate) :: before, d, after, rfl, (left_deleted before c hk).trans hleft⟩

/-- What becomes of a text that is marked, when what is left of it is marked again. -/
def overlay : Marked → Marked → Marked
  | [], _ => []
  | (c, .kept) :: first, (_, fate) :: second => (c, fate) :: overlay first second
  | mark :: first, second => mark :: overlay first second

/-- The second marks stand where the first ones keep a character. -/
inductive Overlays : Marked → Marked → Marked → Prop
  | nil : Overlays [] [] []
  | kept {first second whole : Marked} (c : Char) (fate : Fate) :
      Overlays first second whole →
      Overlays ((c, .kept) :: first) ((c, fate) :: second) ((c, fate) :: whole)
  | deleted {first second whole : Marked} {fate : Fate} (c : Char) :
      fate ≠ .kept → Overlays first second whole →
      Overlays ((c, fate) :: first) second ((c, fate) :: whole)

theorem overlays_overlay {first second : Marked} (h : left first = source second) :
    Overlays first second (overlay first second) := by
  induction first generalizing second with
  | nil =>
    cases second with
    | nil => exact .nil
    | cons mark second => cases h
  | cons mark first ih =>
    obtain ⟨c, fate⟩ := mark
    by_cases hk : fate = .kept
    · subst hk
      cases second with
      | nil => cases h
      | cons mark second =>
        obtain ⟨d, fate⟩ := mark
        obtain ⟨rfl, hrest⟩ := List.cons.inj h
        exact .kept c fate (ih hrest)
    · rw [left_deleted _ _ hk] at h
      have hstep : overlay ((c, fate) :: first) second = (c, fate) :: overlay first second := by
        rw [overlay]
        intro _ _ _ _ _ hmark
        exact hk (Prod.mk.inj hmark).2
      rw [hstep]
      exact .deleted c hk (ih h)

namespace Overlays

variable {first second whole : Marked}

theorem source_eq (h : Overlays first second whole) : source whole = source first := by
  induction h with
  | nil => rfl
  | kept c fate _ ih => exact congrArg (c :: ·) ih
  | deleted c _ _ ih => exact congrArg (c :: ·) ih

theorem left_eq (h : Overlays first second whole) : left whole = left second := by
  induction h with
  | nil => rfl
  | kept c fate _ ih =>
    by_cases hk : fate = .kept
    · rw [hk, left_kept, left_kept, ih]
    · rw [left_deleted _ _ hk, left_deleted _ _ hk, ih]
  | deleted c hk _ ih => rw [left_deleted _ _ hk, ih]

theorem exists_append {chars : List Char} {fate : Fate} (hk : fate ≠ .kept)
    (h : Overlays (all fate chars ++ first) second whole) :
    ∃ rest, whole = all fate chars ++ rest ∧ Overlays first second rest := by
  induction chars generalizing whole with
  | nil => exact ⟨whole, rfl, h⟩
  | cons c chars ih =>
    cases h with
    | kept => exact absurd rfl hk
    | deleted _ _ h =>
      obtain ⟨rest, rfl, hrest⟩ := ih h
      exact ⟨rest, rfl, hrest⟩

theorem composed (h : Overlays first second whole) (hf : first.Composed)
    (hs : ∀ mark ∈ second, mark.2 = .kept ∨ mark = (',', .trailingComma)) : whole.Composed := by
  induction hf generalizing second whole with
  | nil =>
    cases h
    exact .nil
  | kept c _ ih =>
    cases h with
    | kept _ fate h =>
      obtain ⟨hmark, hs⟩ := List.forall_mem_cons.mp hs
      have hrest := ih h hs
      obtain rfl | hcomma := hmark
      · exact .kept c hrest
      · cases hcomma
        exact .comma hrest
    | deleted _ hk => exact absurd rfl hk
  | comma _ ih =>
    cases h with
    | deleted _ _ h => exact .comma (ih h hs)
  | line hb _ ih =>
    obtain ⟨rest, rfl, hrest⟩ := h.exists_append (by simp)
    exact .line hb (ih hrest hs)
  | block hb _ ih =>
    obtain ⟨rest, rfl, hrest⟩ := h.exists_append (by simp)
    exact .block hb (ih hrest hs)

end Overlays

end Marked

open Marked (all source left)

/-- The fates that taking out comments has for the characters of a text. -/
def markComments : List Char → Marked
  | [] => []
  | '"' :: rest =>
    match _h : literalEnd? true rest with
    | some (literal, tail) => all .kept ('"' :: literal) ++ markComments tail
    | none => ('"', .kept) :: markComments rest
  | '/' :: '/' :: rest =>
    all .lineComment ('/' :: '/' :: rest.takeWhile (· ≠ '\n')) ++
      markComments (rest.dropWhile (· ≠ '\n'))
  | '/' :: '*' :: rest =>
    match _h : blockEnd? rest with
    | some tail =>
      all .blockComment ('/' :: '*' :: rest.take (rest.length - tail.length)) ++ markComments tail
    | none => ('/', .kept) :: markComments ('*' :: rest)
  | c :: rest => (c, .kept) :: markComments rest
termination_by text => text.length
decreasing_by
  · have := length_of_literalEnd? _h; simp; omega
  · simp
  · have := Text.length_dropWhile_le (· ≠ '\n') rest; simp only [List.length_cons]; omega
  · have := length_of_blockEnd? _h; simp; omega
  · simp
  · simp

/-- The fates that taking out trailing commas has for the characters of a text. -/
def markTrailingCommas : List Char → Marked
  | [] => []
  | '"' :: rest =>
    match _h : literalEnd? false rest with
    | some (literal, tail) => all .kept ('"' :: literal) ++ markTrailingCommas tail
    | none => ('"', .kept) :: markTrailingCommas rest
  | ',' :: rest =>
    (',', if closesNext rest then .trailingComma else .kept) :: markTrailingCommas rest
  | c :: rest => (c, .kept) :: markTrailingCommas rest
termination_by text => text.length
decreasing_by
  · have := length_of_literalEnd? _h; simp; omega
  all_goals simp

/-- What becomes of the characters of a text when it is stripped. -/
def marked (text : List Char) : Marked :=
  (markComments text).overlay (markTrailingCommas (removeComments text))

theorem take_append_of_blockEnd? {text rest : List Char} (h : blockEnd? text = some rest) :
    text.take (text.length - rest.length) ++ rest = text := by
  obtain ⟨body, -, htext⟩ := exists_body_of_blockEnd? h
  apply List.suffix_iff_eq_append.mp
  exact ⟨body ++ ['*', '/'], by simp [htext]⟩

theorem source_markComments (text : List Char) : source (markComments text) = text := by
  fun_induction markComments text with
  | case1 => rfl
  | case2 rest literal tail hl ih =>
    rw [Marked.source_append, Marked.source_all, ih, eq_append_of_literalEnd? hl]
    rfl
  | case3 rest _ ih => exact congrArg ('"' :: ·) ih
  | case4 rest ih =>
    rw [Marked.source_append, Marked.source_all, ih]
    exact congrArg (['/', '/'] ++ ·) List.takeWhile_append_dropWhile
  | case5 rest tail hb ih =>
    rw [Marked.source_append, Marked.source_all, ih]
    exact congrArg (['/', '*'] ++ ·) (take_append_of_blockEnd? hb)
  | case6 rest _ ih => exact congrArg ('/' :: ·) ih
  | case7 c rest _ _ _ ih => exact congrArg (c :: ·) ih

theorem left_markComments (text : List Char) : left (markComments text) = removeComments text := by
  fun_induction markComments text with
  | case1 => rw [removeComments]; rfl
  | case2 rest literal tail hl ih =>
    rw [removeComments_literal hl, Marked.left_append, Marked.left_all_kept, ih]
  | case3 rest hl ih => rw [removeComments, hl, Marked.left_kept, ih]
  | case4 rest ih =>
    rw [removeComments, Marked.left_append, Marked.left_all_deleted _ (by simp), ih]
    rfl
  | case5 rest tail hb ih =>
    rw [removeComments, hb, Marked.left_append, Marked.left_all_deleted _ (by simp), ih]
    rfl
  | case6 rest hb ih => rw [removeComments, hb, Marked.left_kept, ih]
  | case7 c rest hq hs hb ih => rw [removeComments, Marked.left_kept, ih] <;> assumption

theorem composed_markComments (text : List Char) : (markComments text).Composed := by
  fun_induction markComments text with
  | case1 => exact .nil
  | case2 rest literal tail _ ih => exact ih.append_kept ('"' :: literal)
  | case3 rest _ ih => exact .kept '"' ih
  | case4 rest ih =>
    have hline : '\n' ∉ rest.takeWhile (· ≠ '\n') := fun hm => by
      simpa using List.mem_takeWhile_imp hm
    exact .line hline ih
  | case5 rest tail hb ih =>
    obtain ⟨body, hbody, hrest⟩ := exists_body_of_blockEnd? hb
    have hcomment : rest.take (rest.length - tail.length) = body ++ ['*', '/'] := by
      apply (List.append_left_inj tail).mp
      rw [take_append_of_blockEnd? hb, hrest]
      simp
    rw [hcomment]
    exact .block hbody ih
  | case6 rest _ ih => exact .kept '/' ih
  | case7 c rest _ _ _ ih => exact .kept c ih

theorem source_markTrailingCommas (text : List Char) : source (markTrailingCommas text) = text := by
  fun_induction markTrailingCommas text with
  | case1 => rfl
  | case2 rest literal tail hl ih =>
    rw [Marked.source_append, Marked.source_all, ih, eq_append_of_literalEnd? hl]
    rfl
  | case3 rest _ ih => exact congrArg ('"' :: ·) ih
  | case4 rest ih => exact congrArg (',' :: ·) ih
  | case5 c rest _ _ ih => exact congrArg (c :: ·) ih

theorem left_markTrailingCommas (text : List Char) :
    left (markTrailingCommas text) = removeTrailingCommas text := by
  fun_induction markTrailingCommas text with
  | case1 => rw [removeTrailingCommas]; rfl
  | case2 rest literal tail hl ih =>
    rw [removeTrailingCommas_literal hl, Marked.left_append, Marked.left_all_kept, ih]
  | case3 rest hl ih => rw [removeTrailingCommas_open hl, Marked.left_kept, ih]
  | case4 rest ih =>
    rw [removeTrailingCommas]
    split
    · rw [Marked.left_deleted _ _ (by simp), ih]
    · rw [Marked.left_kept, ih]
  | case5 c rest hq hc ih =>
    rw [removeTrailingCommas_cons (fun h => hq h) (fun h => hc h), Marked.left_kept, ih]

theorem kept_or_comma_of_mem (text : List Char) :
    ∀ mark ∈ markTrailingCommas text, mark.2 = .kept ∨ mark = (',', .trailingComma) := by
  fun_induction markTrailingCommas text with
  | case1 => nofun
  | case2 rest literal tail _ ih =>
    intro mark hm
    obtain hm | hm := List.mem_append.mp hm
    · exact .inl (Marked.mem_all_iff.mp hm).2
    · exact ih mark hm
  | case3 rest _ ih => exact List.forall_mem_cons.mpr ⟨.inl rfl, ih⟩
  | case4 rest ih =>
    apply List.forall_mem_cons.mpr ⟨?_, ih⟩
    split
    · exact .inr rfl
    · exact .inl rfl
  | case5 c rest _ _ ih => exact List.forall_mem_cons.mpr ⟨.inl rfl, ih⟩

/-- The second pass stands over the first one. -/
theorem overlays_marked (text : List Char) :
    Marked.Overlays (markComments text) (markTrailingCommas (removeComments text))
      (marked text) := by
  apply Marked.overlays_overlay
  rw [left_markComments, source_markTrailingCommas]

theorem source_marked (text : List Char) : source (marked text) = text := by
  rw [(overlays_marked text).source_eq, source_markComments]

theorem left_marked (text : List Char) : left (marked text) = stripComments text := by
  rw [(overlays_marked text).left_eq, left_markTrailingCommas]
  rfl

theorem composed_marked (text : List Char) : (marked text).Composed :=
  (overlays_marked text).composed (composed_markComments text) (kept_or_comma_of_mem _)

/-- A character of a text is kept, behind the marked text in front of it. -/
def Keeps (text : List Char) (before : Marked) (c : Char) : Prop :=
  ∃ after, marked text = before ++ (c, .kept) :: after

/-- Every character that is kept stays on its line. -/
def KeepsLines (text : List Char) : Prop :=
  ∀ before c, Keeps text before c → (left before).count '\n' = (source before).count '\n'

variable {text : List Char} {before : Marked} {c : Char}

theorem Keeps.count_source (h : Keeps text before c) :
    (source before).count '\n' = (left before).count '\n' + before.count ('\n', .blockComment) := by
  obtain ⟨after, hmarked⟩ := h
  apply Marked.LosesInBlocks.count_source
  intro fate hm
  apply (composed_marked text).losesInBlocks
  rw [hmarked]
  exact List.mem_append_left _ hm

/-- It stays on its line if and only if no block comment in front of it has a line break. -/
theorem Keeps.count_eq_iff (h : Keeps text before c) :
    (left before).count '\n' = (source before).count '\n' ↔
      ('\n', .blockComment) ∉ before := by
  rw [h.count_source, ← List.count_eq_zero]
  omega

theorem line_of_read {e : ReadError} (h : read text = .error e) :
    e.line = (text.take e.offset).count '\n' + 1 := by
  have hlocated : ∀ outcome : Except Misread Value,
      outcome.mapError (ReadError.locate text) = .error e →
        e.line = (text.take e.offset).count '\n' + 1 := by
    intro outcome ho
    cases outcome with
    | ok value => cases ho
    | error misread =>
      cases ho
      rfl
  exact hlocated _ h

/-- What is left of a text is refused at a character, which stands behind `before` in the text. -/
structure RefusedAt (text : List Char) (e : ReadError) (before : Marked) (c : Char) : Prop where
  refused : read (stripComments text) = .error e
  keeps : Keeps text before c
  place : left before = (stripComments text).take e.offset

theorem exists_refusedAt {e : ReadError} (h : read (stripComments text) = .error e)
    (hp : e.offset < (stripComments text).length) : ∃ before c, RefusedAt text e before c := by
  rw [← left_marked] at hp
  obtain ⟨before, c, after, hmarked, hleft⟩ := Marked.exists_split hp
  rw [left_marked] at hleft
  exact ⟨before, c, h, ⟨after, hmarked⟩, hleft⟩

/-- The line in the text is that of the error and those that block comments take away. -/
theorem RefusedAt.line_eq {e : ReadError} (h : RefusedAt text e before c) :
    (source before).count '\n' + 1 = e.line + before.count ('\n', .blockComment) := by
  rw [line_of_read h.refused, ← h.place, h.keeps.count_source]
  omega

/-- A file is refused for what its text is refused for, at the line that the message tells. -/
theorem refused_of_readObject {tree : FileTree} {file named : Path} {cause : ReadError}
    (h : tree.readObject file = .error (.config (.invalidJson named cause))) :
    (named = file ∧ cause.message =
      s!"{cause.fault.message}: line {cause.line} column {cause.column} (char {cause.offset})") ∧
    ∃ bytes decoded, tree.read file = .ok bytes ∧ Text.decodeMarkedUtf8 bytes = .ok decoded ∧
      read (stripComments (Text.unifyNewlines decoded)) = .error cause := by
  unfold FileTree.readObject at h
  cases hr : tree.read file with
  | error fault =>
    rw [hr] at h
    cases h
  | ok bytes =>
    cases hd : Text.decodeMarkedUtf8 bytes with
    | error fault =>
      simp [hr, hd, Except.mapError, bind, Except.bind] at h
    | ok decoded =>
      simp only [hr, hd, Except.mapError, bind, Except.bind] at h
      cases ht : read (stripComments (Text.unifyNewlines decoded)) with
      | ok value => cases value <;> simp [ht, pure, Except.pure] at h
      | error found =>
        simp only [ht] at h
        split at h
        · cases h
        · rename_i hlong
          cases h
          refine ⟨⟨rfl, ?_⟩, bytes, decoded, rfl, hd, ht⟩
          unfold ReadError.message
          split
          · rename_i hfault
            exact absurd hfault (hlong _)
          · rfl

/-- The marks of a text compose it of kept characters, comments and trailing commas, and what is
left is the stripped text. Every character that is kept stays on its line if and only if no block
comment with a line break stands in front of one. Where what is left is refused at a character, the
line of the error is that of the character in the text, but for the line breaks in the block
comments in front of it. What a file is refused for is what its text is refused for, at the line
that the message tells. -/
theorem keepsLines_iff (text : List Char) :
    (source (marked text) = text ∧ left (marked text) = stripComments text ∧
      (marked text).Composed) ∧
    (KeepsLines text ↔ ∀ before c, Keeps text before c → ('\n', .blockComment) ∉ before) ∧
    (∀ e, read (stripComments text) = .error e → e.offset < (stripComments text).length →
      ∃ before c, RefusedAt text e before c ∧
        (source before).count '\n' + 1 = e.line + before.count ('\n', .blockComment)) ∧
    ∀ (tree : FileTree) (file named : Path) (cause : ReadError),
      tree.readObject file = .error (.config (.invalidJson named cause)) →
      (named = file ∧ cause.message =
        s!"{cause.fault.message}: line {cause.line} column {cause.column} (char {cause.offset})") ∧
        ∃ bytes decoded, tree.read file = .ok bytes ∧ Text.decodeMarkedUtf8 bytes = .ok decoded ∧
          read (stripComments (Text.unifyNewlines decoded)) = .error cause := by
  refine ⟨⟨source_marked text, left_marked text, composed_marked text⟩, ?_, ?_, ?_⟩
  · exact forall₂_congr fun before c => forall_congr' fun hkeeps => hkeeps.count_eq_iff
  · intro e h hp
    obtain ⟨before, c, hrefused⟩ := exists_refusedAt h hp
    exact ⟨before, c, hrefused, hrefused.line_eq⟩
  · intro tree file named cause h
    exact refused_of_readObject h

namespace Breaking

/-- Comments that leave the lines as they are, in front of what is no key. -/
def lineText : List Char :=
  "\x7b// a\n/* b */,\n]x".toList

theorem keepsLines_iff_lines :
    KeepsLines lineText ∧
    read (stripComments lineText) = .error ⟨.expectedName, 3, 1, 3⟩ ∧
    ∃ before c, RefusedAt lineText ⟨.expectedName, 3, 1, 3⟩ before c ∧
      (source before).count '\n' + 1 = 3 + before.count ('\n', .blockComment) := by
  have hnone : (marked lineText).count ('\n', .blockComment) = 0 := by cbv
  have hrefused : read (stripComments lineText) = .error ⟨.expectedName, 3, 1, 3⟩ := by cbv
  obtain ⟨-, hkeeps, hline, -⟩ := keepsLines_iff lineText
  refine ⟨hkeeps.mpr ?_, hrefused, hline _ hrefused (by cbv)⟩
  rintro before c ⟨after, hmarked⟩ hm
  apply List.count_eq_zero.mp hnone
  rw [hmarked]
  exact List.mem_append_left _ hm

/-- A block comment over two lines, in front of what is no key. -/
def blockText : List Char :=
  "\x7b/*\n*/x\x7d".toList

def file : Path := ⟨.root, ["p", "tsconfig.json"]⟩

def tree : FileTree where
  files := [(["p", "tsconfig.json"], [123, 47, 42, 10, 42, 47, 120, 125])]
  directories := [["p"]]
  current := ⟨.root, ["p"]⟩

/-- What stands in front of the `x`. -/
def beforeLetter : Marked :=
  ('{', .kept) :: Marked.all .blockComment "/*\n*/".toList

/-- The `x` is on the second line of the file, and the error that the file is refused for is on the
first one. -/
theorem not_keepsLines_block :
    ¬ KeepsLines blockText ∧
    Text.decodeMarkedUtf8 [123, 47, 42, 10, 42, 47, 120, 125] = .ok blockText ∧
    tree.readObject file =
      .error (.config (.invalidJson file ⟨.expectedName, 1, 2, 1⟩)) ∧
    RefusedAt blockText ⟨.expectedName, 1, 2, 1⟩ beforeLetter 'x' ∧
    (source beforeLetter).count '\n' + 1 = 2 := by
  have hkeeps : Keeps blockText beforeLetter 'x' := ⟨[('}', .kept)], by cbv⟩
  refine ⟨?_, by cbv, by cbv, ⟨by cbv, hkeeps, by cbv⟩, by decide⟩
  intro h
  exact absurd (h beforeLetter 'x' hkeeps) (by decide)

end Breaking

end ImportAlias.Json
