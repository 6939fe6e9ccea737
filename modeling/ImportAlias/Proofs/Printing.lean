import ImportAlias.Command.Run
import Mathlib.Data.List.Basic

/-!
# Lists that can be printed

The mappings of a table are listed on lines of text, and a line with half of a
surrogate pair in it has no form in bytes. What stands around the texts of a
mapping is plain, so the lines of a table can be printed exactly if its base
directory and the aliases and targets that are listed have no half in them.
-/

namespace ImportAlias.Command

open Text (IsPlain holdsHalf)

theorem printed_eq_error_iff (lines : List String) :
    (∃ fault, printed lines = .error fault) ↔ ∃ line ∈ lines, holdsHalf line = true := by
  have hnone : lines.findSome? Text.printError? = none ↔
      ¬ ∃ line ∈ lines, holdsHalf line = true := by
    rw [List.findSome?_eq_none_iff]
    simp only [Text.printError?_eq_none_iff, not_exists, not_and, Bool.not_eq_true]
  unfold printed
  cases hl : lines.findSome? Text.printError? with
  | some cause => simpa [hl] using hnone
  | none => simpa [hl] using hnone

theorem holdsHalf_padded (width : Nat) (text : String) :
    holdsHalf (padded width text) = holdsHalf text := by
  apply Text.holdsHalf_append_of_isPlain
  intro c hc
  rw [String.toList_ofList] at hc
  rw [List.eq_of_mem_replicate hc]
  decide

theorem holdsHalf_mappingLines (table : Table) (shown : List Mapping) :
    (∃ line ∈ mappingLines table shown, holdsHalf line = true) ↔
      holdsHalf table.baseDirectory.toString = true ∨
        ∃ mapping ∈ shown, holdsHalf mapping.key = true ∨ holdsHalf mapping.target = true := by
  have hheading : IsPlain "Base directory: " := by decide
  have hindent : IsPlain "  " := by decide
  have harrow : IsPlain "  ->  " := by decide
  have hmark : ∀ mapping : Mapping, IsPlain (if mapping.isTypings then "  (typings)" else "") := by
    intro mapping
    split <;> decide
  simp only [mappingLines, List.mem_cons, exists_eq_or_imp, List.mem_map, exists_exists_and_eq_and,
    Text.holdsHalf_of_isPlain_append hheading]
  refine or_congr_right (exists_congr fun mapping => and_congr_right fun _ => ?_)
  rw [Text.holdsHalf_append_of_isPlain (hmark mapping),
    Text.holdsHalf_append_append harrow (by decide), Text.holdsHalf_of_isPlain_append hindent,
    holdsHalf_padded, Bool.or_eq_true]

end ImportAlias.Command
