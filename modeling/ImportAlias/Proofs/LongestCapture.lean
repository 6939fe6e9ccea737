import ImportAlias.Proofs.Capture
import Mathlib.Logic.Function.Basic

/-!
# The longest capture

An alias with one wildcard has two ends, the text before the wildcard and the text
behind it. It matches a specifier that has the first end at its start and the
second one somewhere behind the first, and of all the texts that stand between
them in this way its wildcard captures the longest. The wildcard is the only letter
that counts: ends and specifiers with other letters in the same places match alike.
-/

namespace ImportAlias

namespace Text

section

variable {α β : Type} [DecidableEq α] [DecidableEq β] {rename : α → β}

theorem isPrefixOf_map (hr : Function.Injective rename) (mark text : List α) :
    (mark.map rename).isPrefixOf (text.map rename) = mark.isPrefixOf text := by
  induction mark generalizing text with
  | nil => simp
  | cons a mark ih =>
    cases text with
    | nil => rfl
    | cons c text => simp [List.isPrefixOf, ih, hr.eq_iff, beq_eq_decide]

theorem after?_map (hr : Function.Injective rename) (start text : List α) :
    after? (start.map rename) (text.map rename) = (after? start text).map (List.map rename) := by
  induction start generalizing text with
  | nil => rfl
  | cons a start ih =>
    cases text with
    | nil => rfl
    | cons c text => by_cases h : a = c <;> simp [after?, h, ih, hr.eq_iff]

theorem beforeLast?_map (hr : Function.Injective rename) (mark text : List α) :
    beforeLast? (mark.map rename) (text.map rename) =
      (beforeLast? mark text).map (List.map rename) := by
  induction text with
  | nil => cases mark <;> rfl
  | cons c text ih =>
    have hp := isPrefixOf_map hr mark (c :: text)
    rw [List.map_cons] at hp ⊢
    rw [beforeLast?, beforeLast?, ih, hp]
    cases beforeLast? mark text with
    | some found => rfl
    | none => cases mark.isPrefixOf (c :: text) <;> rfl

end

end Text

namespace Pattern

variable {before after specifier captured : String}

/-- A specifier has `before` at its start and `after` behind it, with `captured` between them;
what comes last does not count. -/
def Frames (before after specifier captured : String) : Prop :=
  ∃ rest, specifier = before ++ captured ++ after ++ rest

theorem frames_iff :
    Frames before after specifier captured ↔ ∃ rest,
      specifier.toList = before.toList ++ captured.toList ++ after.toList ++ rest := by
  constructor
  · rintro ⟨rest, rfl⟩
    exact ⟨rest.toList, by simp⟩
  · rintro ⟨rest, hr⟩
    exact ⟨String.ofList rest, by rw [← String.toList_inj, hr]; simp⟩

/-- Both ends and what stands between them have room in the specifier, one behind the other. -/
theorem Frames.length_le (h : Frames before after specifier captured) :
    before.length + captured.length + after.length ≤ specifier.length := by
  obtain ⟨rest, rfl⟩ := h
  simp only [String.length_append]
  omega

theorem ofAlias_ends (hb : '*' ∉ before.toList) (ha : '*' ∉ after.toList) :
    ofAlias (before ++ "*" ++ after) = .ok (.wildcard before after) := by
  have hk : (before ++ "*" ++ after).toList = before.toList ++ '*' :: after.toList := by simp
  have hone : wildcards (before ++ "*" ++ after) = 1 := by
    rw [wildcards, hk, List.count_append, List.count_cons_self, List.count_eq_zero.mpr hb,
      List.count_eq_zero.mpr ha]
  rw [ofAlias_eq, hone, if_pos Nat.one_lt_two, compiled_of_toList_eq hb hk]
  simp

theorem not_mem_ends (h : wildcards (before ++ "*" ++ after) = 1) :
    '*' ∉ before.toList ∧ '*' ∉ after.toList := by
  have hk : (before ++ "*" ++ after).toList = before.toList ++ '*' :: after.toList := by simp
  rw [wildcards, hk, List.count_append, List.count_cons_self] at h
  exact ⟨List.count_eq_zero.mp (by omega), List.count_eq_zero.mp (by omega)⟩

theorem capture?_eq_some_iff :
    (wildcard before after).capture? specifier = some captured ↔
      Frames before after specifier captured ∧
        ∀ other, Frames before after specifier other → other.length ≤ captured.length := by
  have hcapture := @capture?_wildcard_iff before.toList after.toList specifier captured
  rw [String.ofList_toList, String.ofList_toList] at hcapture
  rw [hcapture, frames_iff]
  refine and_congr_right fun _ => ⟨fun hl other ho => ?_, fun hl other rest ho => ?_⟩
  · obtain ⟨rest, hr⟩ := frames_iff.mp ho
    exact hl other.toList rest hr
  · have hother : Frames before after specifier (String.ofList other) :=
      frames_iff.mpr ⟨rest, by simpa using ho⟩
    simpa only [String.length_ofList, String.length_toList] using hl _ hother

theorem capture?_eq_none_iff :
    (wildcard before after).capture? specifier = none ↔
      ∀ captured, ¬ Frames before after specifier captured := by
  constructor
  · intro hn captured hf
    obtain ⟨rest, hr⟩ := frames_iff.mp hf
    have hstart : Text.after? before.toList specifier.toList =
        some (captured.toList ++ after.toList ++ rest) :=
      Text.after?_eq_some_iff.mpr (by simpa using hr)
    have hlast :
        Text.beforeLast? after.toList (captured.toList ++ after.toList ++ rest) = none := by
      cases h : Text.beforeLast? after.toList (captured.toList ++ after.toList ++ rest) with
      | none => rfl
      | some found => simp only [capture?, hstart, h, bind, Option.bind, reduceCtorEq] at hn
    exact Text.beforeLast?_eq_none_iff.mp hlast ⟨captured.toList, rest, rfl⟩
  · intro hn
    cases h : (wildcard before after).capture? specifier with
    | none => rfl
    | some captured => exact absurd (capture?_eq_some_iff.mp h).1 (hn captured)

theorem capture?_open_iff :
    (wildcard before "").capture? specifier = some captured ↔ specifier = before ++ captured := by
  have hrest : (wildcard before "").capture? specifier = some captured ↔
      Text.after? before.toList specifier.toList = some captured.toList := by
    cases h : Text.after? before.toList specifier.toList <;>
      simp [capture?, h, ← String.toList_inj]
  rw [hrest, Text.after?_eq_some_iff, ← String.toList_append, String.toList_inj]

/-- Other letters in the same places are captured in the same places. -/
theorem capture?_map {rename : Char → Char} (hr : Function.Injective rename)
    (before after specifier : String) :
    (wildcard (before.map rename) (after.map rename)).capture? (specifier.map rename) =
      ((wildcard before after).capture? specifier).map (String.map rename) := by
  simp only [capture?, String.toList_map, Text.after?_map hr]
  cases Text.after? before.toList specifier.toList with
  | none => rfl
  | some rest =>
    simp only [Option.map_some, Option.bind_eq_bind, Option.bind_some, Text.beforeLast?_map hr]
    cases Text.beforeLast? after.toList rest with
    | none => rfl
    | some found => simp [← String.toList_inj]

/-- An alias with one wildcard matches a specifier unless no text stands between its ends in it, and
captures the longest that does; without an end behind the wildcard this is everything. The ends do
not overlap, and no other letter has a meaning: with other letters in the same places, the same
places are captured. -/
theorem captures_longest {key before after : String} (hk : key = before ++ "*" ++ after)
    (hone : wildcards key = 1) :
    ∃ pattern, ofAlias key = .ok pattern ∧ ∀ specifier : String,
      (pattern.capture? specifier = none ↔ ∀ captured, ¬ Frames before after specifier captured) ∧
      (∀ captured, pattern.capture? specifier = some captured ↔
        Frames before after specifier captured ∧
          ∀ other, Frames before after specifier other → other.length ≤ captured.length) ∧
      (after = "" → ∀ captured,
        pattern.capture? specifier = some captured ↔ specifier = before ++ captured) ∧
      (∀ captured, pattern.capture? specifier = some captured →
        before.length + captured.length + after.length ≤ specifier.length) ∧
      ∀ rename : Char → Char, Function.Injective rename →
        '*' ∉ (before.map rename).toList → '*' ∉ (after.map rename).toList →
        ∃ renamed, ofAlias (before.map rename ++ "*" ++ after.map rename) = .ok renamed ∧
          renamed.capture? (specifier.map rename) =
            (pattern.capture? specifier).map (String.map rename) := by
  subst hk
  obtain ⟨hb, ha⟩ := not_mem_ends hone
  refine ⟨.wildcard before after, ofAlias_ends hb ha, fun specifier => ?_⟩
  refine ⟨capture?_eq_none_iff, fun captured => capture?_eq_some_iff, ?_, ?_, ?_⟩
  · rintro rfl captured
    exact capture?_open_iff
  · intro captured hc
    exact (capture?_eq_some_iff.mp hc).1.length_le
  · intro rename hr hb' ha'
    exact ⟨_, ofAlias_ends hb' ha', capture?_map hr before after specifier⟩

/-- The last of two ends that overlap counts, and an end is not found inside the other one. -/
theorem captures_longest_overlapping :
    "a*aa" = "a" ++ "*" ++ "aa" ∧ wildcards "a*aa" = 1 ∧
    (Frames "a" "aa" "abaaa" "ba" ∧
      ∀ other, Frames "a" "aa" "abaaa" other → other.length ≤ "ba".length) ∧
    ∀ captured, ¬ Frames "a" "aa" "aa" captured := by
  have hk : "a*aa" = "a" ++ "*" ++ "aa" := by decide
  have hone : wildcards "a*aa" = 1 := by decide
  obtain ⟨pattern, hp, hreads⟩ := captures_longest hk hone
  obtain rfl : Pattern.wildcard "a" "aa" = pattern := Except.ok.inj hp
  refine ⟨hk, hone, ?_, ?_⟩
  · exact ((hreads "abaaa").2.1 "ba").mp (by decide)
  · exact (hreads "aa").1.mp (by decide)

end Pattern

end ImportAlias
