import ImportAlias.Pattern

/-!
# What a wildcard stands for

An alias claims specifiers by its text alone. A literal alias claims itself. An
alias with one wildcard claims every specifier in which its two ends occur, one
at the start and the other somewhere behind it, and its wildcard stands for the
longest text between them. Compiled aliases capture exactly that.
-/

namespace ImportAlias

namespace Text

variable {α : Type} [DecidableEq α] {mark text found other rest : List α}

theorem length_le_of_beforeLast? (h : beforeLast? mark text = some found)
    (ho : text = other ++ mark ++ rest) : other.length ≤ found.length := by
  induction text generalizing found other with
  | nil =>
    obtain ⟨rfl, -, -⟩ : other = [] ∧ mark = [] ∧ rest = [] := by simpa using ho.symm
    simp
  | cons c text ih =>
    cases other with
    | nil => simp
    | cons d other =>
      obtain ⟨rfl, ht⟩ : c = d ∧ text = other ++ mark ++ rest := by simpa using ho
      have hi : mark <:+: text := ⟨other, rest, ht.symm⟩
      cases hb : beforeLast? mark text with
      | none => exact absurd hi (beforeLast?_eq_none_iff.mp hb)
      | some earlier =>
        obtain rfl : c :: earlier = found := by simpa [beforeLast?, hb] using h
        simpa using ih hb ht

/-- The last occurrence is the one with the longest text in front of it. -/
theorem beforeLast?_eq_some_iff :
    beforeLast? mark text = some found ↔ (∃ rest, text = found ++ mark ++ rest) ∧
      ∀ other rest, text = other ++ mark ++ rest → other.length ≤ found.length := by
  constructor
  · intro h
    exact ⟨eq_append_of_beforeLast? h, fun other rest ho => length_le_of_beforeLast? h ho⟩
  · rintro ⟨⟨rest, hr⟩, hlongest⟩
    cases hb : beforeLast? mark text with
    | none => exact absurd ⟨found, rest, hr.symm⟩ (beforeLast?_eq_none_iff.mp hb)
    | some last =>
      obtain ⟨tail, ht⟩ := eq_append_of_beforeLast? hb
      have hlen : last.length = found.length :=
        Nat.le_antisymm (hlongest last tail ht) (length_le_of_beforeLast? hb hr)
      have heq : last ++ (mark ++ tail) = found ++ (mark ++ rest) := by
        simpa using ht.symm.trans hr
      rw [(List.append_inj heq hlen).1]

end Text

/-- Whether an alias claims a specifier, read off both texts. -/
inductive Claims : List Char → List Char → Prop
  | literal {key : List Char} (hk : '*' ∉ key) : Claims key key
  | wildcard (before captured after rest : List Char) :
      Claims (before ++ '*' :: after) (before ++ captured ++ after ++ rest)

/-- `captured` is what an alias makes its wildcard stand for in a specifier. -/
inductive Captures : List Char → List Char → List Char → Prop
  | literal {key : List Char} (hk : '*' ∉ key) : Captures key key []
  | wildcard {before captured after specifier : List Char} (hb : '*' ∉ before)
      (hs : ∃ rest, specifier = before ++ captured ++ after ++ rest)
      (longest : ∀ other rest, specifier = before ++ other ++ after ++ rest →
        other.length ≤ captured.length) :
      Captures (before ++ '*' :: after) specifier captured

theorem append_cons_inj {letter : Char} {before after before' after' : List Char}
    (hb : letter ∉ before) (hb' : letter ∉ before')
    (h : before ++ letter :: after = before' ++ letter :: after') :
    before = before' ∧ after = after' := by
  induction before generalizing before' with
  | nil =>
    cases before' with
    | nil => simpa using h
    | cons d before' =>
      obtain ⟨rfl, -⟩ : letter = d ∧ _ := by simpa using h
      simp at hb'
  | cons c before ih =>
    cases before' with
    | nil =>
      obtain ⟨rfl, -⟩ : c = letter ∧ _ := by simpa using h
      simp at hb
    | cons d before' =>
      obtain ⟨rfl, ht⟩ : c = d ∧ _ := by simpa using h
      obtain ⟨rfl, rfl⟩ := ih (fun hm => hb (by simp [hm])) (fun hm => hb' (by simp [hm])) ht
      exact ⟨rfl, rfl⟩

theorem captures_literal_iff {key specifier captured : List Char} (hk : '*' ∉ key) :
    Captures key specifier captured ↔ specifier = key ∧ captured = [] := by
  constructor
  · intro h
    cases h with
    | literal => exact ⟨rfl, rfl⟩
    | wildcard => simp at hk
  · rintro ⟨rfl, rfl⟩
    exact .literal hk

theorem captures_wildcard_iff {before after specifier captured : List Char} (hb : '*' ∉ before) :
    Captures (before ++ '*' :: after) specifier captured ↔
      (∃ rest, specifier = before ++ captured ++ after ++ rest) ∧
        ∀ other rest, specifier = before ++ other ++ after ++ rest →
          other.length ≤ captured.length := by
  constructor
  · generalize hk : before ++ '*' :: after = key
    intro h
    cases h with
    | literal hn => simp [← hk] at hn
    | wildcard hb' hs longest =>
      obtain ⟨rfl, rfl⟩ := append_cons_inj hb hb' hk
      exact ⟨hs, longest⟩
  · rintro ⟨hs, longest⟩
    exact .wildcard hb hs longest

theorem Captures.unique {key specifier first second : List Char}
    (hf : Captures key specifier first) (hs : Captures key specifier second) : first = second := by
  cases hf with
  | literal hk => exact ((captures_literal_iff hk).mp hs).2.symm
  | wildcard hb he longest =>
    obtain ⟨⟨rest, hr⟩, hl⟩ := (captures_wildcard_iff hb).mp hs
    obtain ⟨tail, ht⟩ := he
    have hlen : first.length = second.length := Nat.le_antisymm (hl _ _ ht) (longest _ _ hr)
    simp only [List.append_assoc] at ht hr
    have heq := List.append_cancel_left (ht.symm.trans hr)
    exact (List.append_inj heq hlen).1

namespace Pattern

/-- The number of wildcards in an alias. -/
def wildcards (key : String) : Nat :=
  key.toList.count '*'

/-- The pattern of an alias with at most one wildcard. -/
def compiled (key : String) : Pattern :=
  if '*' ∈ key.toList then
    let before := key.toList.takeWhile (· ≠ '*')
    .wildcard (String.ofList before) (String.ofList (key.toList.drop (before.length + 1)))
  else .exact key

theorem ofAlias_eq (key : String) :
    ofAlias key = if wildcards key < 2 then .ok (compiled key)
      else .error (.severalWildcards key (wildcards key)) := by
  rcases hc : key.toList.count '*' with - | - | n
  · have hm : '*' ∉ key.toList := List.count_eq_zero.mp hc
    simp [ofAlias, wildcards, compiled, hc, hm]
  · have hm : '*' ∈ key.toList := List.count_pos_iff.mp (by omega)
    simp [ofAlias, wildcards, compiled, hc, hm]
  · simp [ofAlias, wildcards, hc]

theorem compiled_of_toList_eq {key : String} {before after : List Char} (hb : '*' ∉ before)
    (hk : key.toList = before ++ '*' :: after) :
    compiled key = .wildcard (String.ofList before) (String.ofList after) := by
  have hw : (before ++ '*' :: after).takeWhile (· ≠ '*') = before := by
    rw [List.takeWhile_append_of_pos]
    · simp
    · intro c hc
      simpa using fun e : c = '*' => hb (e ▸ hc)
  simp only [compiled, hk, hw]
  simp

theorem capture?_wildcard_iff {before after : List Char} {specifier captured : String} :
    (wildcard (String.ofList before) (String.ofList after)).capture? specifier = some captured ↔
      (∃ rest, specifier.toList = before ++ captured.toList ++ after ++ rest) ∧
        ∀ other rest, specifier.toList = before ++ other ++ after ++ rest →
          other.length ≤ captured.toList.length := by
  cases hs : Text.after? before specifier.toList with
  | none =>
    have hn : ∀ other rest, specifier.toList ≠ before ++ other ++ after ++ rest := by
      intro other rest h
      have hr : specifier.toList = before ++ (other ++ after ++ rest) := by simpa using h
      exact absurd (Text.after?_eq_some_iff.mpr hr) (by simp [hs])
    constructor
    · simp [capture?, hs]
    · rintro ⟨⟨rest, hr⟩, -⟩
      exact absurd hr (hn _ _)
  | some rest =>
    have he := Text.after?_eq_some_iff.mp hs
    have hc : (wildcard (String.ofList before) (String.ofList after)).capture? specifier =
        some captured ↔ Text.beforeLast? after rest = some captured.toList := by
      cases hb : Text.beforeLast? after rest <;> simp [capture?, hs, hb, ← String.toList_inj]
    rw [hc, Text.beforeLast?_eq_some_iff]
    simp [he]

/-- Compiled aliases capture what the texts say. -/
theorem capture?_compiled_iff {key specifier captured : String} :
    (compiled key).capture? specifier = some captured ↔
      Captures key.toList specifier.toList captured.toList := by
  by_cases hk : '*' ∈ key.toList
  · obtain ⟨before, after, he, hb⟩ := List.eq_append_cons_of_mem hk
    rw [compiled_of_toList_eq hb he, capture?_wildcard_iff, he, captures_wildcard_iff hb]
  · rw [captures_literal_iff hk]
    by_cases h : specifier = key
    · simp [compiled, hk, capture?, h]
    · simp [compiled, hk, capture?, h, String.toList_inj]

theorem exists_captures_iff {key specifier : List Char} (hk : key.count '*' < 2) :
    (∃ captured, Captures key specifier captured) ↔ Claims key specifier := by
  constructor
  · rintro ⟨captured, h⟩
    cases h with
    | literal hk => exact .literal hk
    | @wildcard before captured after specifier hb hs longest =>
      obtain ⟨rest, rfl⟩ := hs
      exact .wildcard before captured after rest
  · intro h
    cases h with
    | literal hk => exact ⟨[], .literal hk⟩
    | wildcard before captured after rest =>
      have hb : '*' ∉ before := by
        simp only [List.count_append, List.count_cons_self] at hk
        exact List.count_eq_zero.mp (by omega)
      cases hl : Text.beforeLast? after (captured ++ after ++ rest) with
      | none =>
        exact absurd ⟨captured, rest, rfl⟩ (Text.beforeLast?_eq_none_iff.mp hl)
      | some last =>
        obtain ⟨⟨tail, ht⟩, longest⟩ := Text.beforeLast?_eq_some_iff.mp hl
        refine ⟨last, .wildcard hb ⟨tail, ?_⟩ ?_⟩
        · simpa using ht
        · intro other rest' ho
          exact longest other rest' (by simpa using ho)

end Pattern

end ImportAlias
