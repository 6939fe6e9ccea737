import ImportAlias.Proofs.FirstPair
import ImportAlias.Proofs.Joining
import ImportAlias.Proofs.LongestCapture

/-!
# What stands for a wildcard

A text is put in place of the wildcard of an alias. The specifier that comes out
matches the alias, whatever the text is, and exactly this text is captured again:
copies of the ends in it, or another wildcard, do not move the capture. The target
then has the same text in place of its own first wildcard, and it is a path below
the base directory if what has come out starts with a dot.
-/

namespace ImportAlias

/-- A text in which `captured` stands for the first wildcard; a text without a wildcard stays as it
is. -/
inductive Expands (captured : String) : String → String → Prop
  | wildcard {start rest : String} (hs : '*' ∉ start.toList) :
    Expands captured (start ++ "*" ++ rest) (start ++ captured ++ rest)
  | fixed {text : String} (ht : '*' ∉ text.toList) : Expands captured text text

theorem Expands.unique {captured text first second : String} (hf : Expands captured text first)
    (hs : Expands captured text second) : first = second := by
  cases hf with
  | @wildcard start rest hstart =>
    generalize htext : start ++ "*" ++ rest = text at hs
    cases hs with
    | @wildcard start' rest' hstart' =>
      have hletters := congrArg String.toList htext
      simp only [String.toList_append, List.append_assoc] at hletters
      obtain ⟨hs, hr⟩ := append_cons_inj hstart hstart' hletters
      rw [String.toList_inj.mp hs, String.toList_inj.mp hr]
    | fixed ht => simp [← htext] at ht
  | fixed ht =>
    cases hs with
    | wildcard => simp at ht
    | fixed => rfl

theorem expands_replaceFirst (captured text : String) :
    Expands captured text
      (String.ofList (Text.replaceFirst '*' captured.toList text.toList)) := by
  by_cases ht : '*' ∈ text.toList
  · obtain ⟨start, rest, he, hs⟩ := List.eq_append_cons_of_mem ht
    have htext : text = String.ofList start ++ "*" ++ String.ofList rest := by
      rw [← String.toList_inj, he]
      simp
    have hfilled : String.ofList (Text.replaceFirst '*' captured.toList text.toList) =
        String.ofList start ++ captured ++ String.ofList rest := by
      rw [he, Text.replaceFirst_append_cons _ _ hs, ← String.toList_inj]
      simp
    rw [hfilled, htext]
    exact .wildcard (by simpa using hs)
  · rw [Text.replaceFirst_of_not_mem _ ht, String.ofList_toList]
    exact .fixed ht

theorem Expands.exists_ends {key specifier captured : String} (h : Expands captured key specifier)
    (hone : Pattern.wildcards key = 1) :
    ∃ before after, key = before ++ "*" ++ after ∧ specifier = before ++ captured ++ after := by
  cases h with
  | @wildcard start rest _ => exact ⟨start, rest, rfl, rfl⟩
  | fixed ht =>
    rw [Pattern.wildcards, List.count_eq_zero.mpr ht] at hone
    cases hone

/-- What is put between the ends is captured again: nothing longer has room between them. -/
theorem Pattern.capture?_append (before captured after : String) :
    (wildcard before after).capture? (before ++ captured ++ after) = some captured := by
  refine capture?_eq_some_iff.mpr ⟨⟨"", by simp⟩, fun other hother => ?_⟩
  have hlength := hother.length_le
  simp only [String.length_append] at hlength
  omega

theorem Match.expands_filled {found : Match} {before after : String}
    (hp : found.mapping.pattern = .wildcard before after) :
    Expands found.captured found.mapping.target found.filled := by
  rw [filled, hp]
  exact expands_replaceFirst found.captured found.mapping.target

/-- A text put in place of the wildcard of an alias is captured from the specifier that comes out,
and stands in place of the first wildcard of the target: what comes out there is the destination,
below the base directory if it starts with a dot and as it is if it does not. -/
theorem expanded_comes_back {key specifier captured base : String}
    (hone : Pattern.wildcards key = 1) (hs : Expands captured key specifier) (hn : specifier ≠ "")
    (hb : (Path.ofString base).isAbsolute = true) (target : String) :
    ∃ pattern found filled, Pattern.ofAlias key = .ok pattern ∧
      (Mapping.mk key pattern target).match? (some specifier) = some found ∧
      found.captured = captured ∧ Expands captured target filled ∧
      (filled.toList.head? = some '.' →
        found.destination (Path.ofString base) =
          (Path.ofString (Path.joinTexts base filled)).normalize.toString ∧
        (found.destination (Path.ofString base)).toList.head? = some '/') ∧
      (filled.toList.head? ≠ some '.' → found.destination (Path.ofString base) = filled) := by
  obtain ⟨before, after, rfl, rfl⟩ := hs.exists_ends hone
  obtain ⟨hbefore, hafter⟩ := Pattern.not_mem_ends hone
  let found : Match := ⟨⟨before ++ "*" ++ after, .wildcard before after, target⟩,
    before ++ captured ++ after, captured⟩
  have hfilled : Expands captured target found.filled :=
    @Match.expands_filled found before after rfl
  refine ⟨.wildcard before after, found, found.filled, Pattern.ofAlias_ends hbefore hafter, ?_,
    rfl, hfilled, fun hdot => ?_, fun hdot => ?_⟩
  · rw [Mapping.match?, if_neg hn, Pattern.capture?_append]
    rfl
  · have hjoined : found.destination (Path.ofString base) =
        (Path.ofString base / Path.ofString found.filled).normalize.toString := by
      rw [Match.destination_eq, anchored, if_pos hdot]
    rw [Path.ofString_joinTexts, hjoined]
    refine ⟨rfl, Path.head?_toString ?_⟩
    rw [Path.isAbsolute_normalize, Path.isAbsolute_div hb]
  · rw [Match.destination_eq, anchored, if_neg hdot]

/-- A text with a wildcard and copies of the end behind it is captured whole, and leads out of the
base directory. -/
theorem expanded_comes_back_upwards :
    Pattern.wildcards "a*b" = 1 ∧ Expands "./b*b" "a*b" "a./b*bb" ∧ "a./b*bb" ≠ "" ∧
    (Path.ofString "/p/q").isAbsolute = true ∧
    ∃ pattern found, Pattern.ofAlias "a*b" = .ok pattern ∧
      (Mapping.mk "a*b" pattern ".*/x*").match? (some "a./b*bb") = some found ∧
      found.captured = "./b*b" ∧
      found.destination (Path.ofString "/p/q") = "/p/b*b/x*" := by
  have hone : Pattern.wildcards "a*b" = 1 := by decide
  have hs : Expands "./b*b" ("a" ++ "*" ++ "b") ("a" ++ "./b*b" ++ "b") := .wildcard (by decide)
  have hn : "a./b*bb" ≠ "" := by decide
  have hb : (Path.ofString "/p/q").isAbsolute = true := by decide
  obtain ⟨pattern, found, filled, hp, hm, hc, -⟩ := expanded_comes_back hone hs hn hb ".*/x*"
  obtain rfl : Pattern.wildcard "a" "b" = pattern := Except.ok.inj hp
  obtain rfl : _ = found := Option.some.inj hm
  exact ⟨hone, hs, hn, hb, _, _, hp, hm, hc, by decide⟩

end ImportAlias
