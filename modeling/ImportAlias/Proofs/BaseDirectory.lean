import ImportAlias.Proofs.CanonicalPaths
import ImportAlias.Proofs.FirstPair
import Mathlib.Data.List.TakeWhile

/-!
# Base directories

Relative targets start from the base directory: the base URL, read from the directory
of the configuration file, or this directory itself. If the file is named by an
absolute text, the base directory does not depend on where the table is built, and its
text is canonical.
-/

namespace ImportAlias

namespace Path

theorem directoryOf_eq (file : String) :
    directoryOf file =
      if (file.toList.reverse.dropWhile (· ≠ '/')).dropWhile (· = '/') = [] then
        String.ofList (file.toList.reverse.dropWhile (· ≠ '/'))
      else
        String.ofList ((file.toList.reverse.dropWhile (· ≠ '/')).dropWhile (· = '/')).reverse := by
  simp only [directoryOf, List.isEmpty_iff]
  split <;> rfl

theorem dropWhile_concat {α : Type} {p : α → Bool} {front : List α} {last : α}
    (h : (front ++ [last]).dropWhile p ≠ []) :
    ∃ kept, (front ++ [last]).dropWhile p = kept ++ [last] := by
  obtain ⟨dropped, hdropped⟩ := List.dropWhile_suffix p (l := front ++ [last])
  obtain hnil | ⟨kept, other, hkept⟩ := List.eq_nil_or_concat ((front ++ [last]).dropWhile p)
  · exact absurd hnil h
  · rw [List.concat_eq_append] at hkept
    rw [hkept, ← List.append_assoc] at hdropped
    obtain ⟨-, rfl⟩ : _ ∧ other = last := by simpa using List.append_inj' hdropped rfl
    exact ⟨kept, hkept⟩

theorem head?_directoryOf {file : String} (h : file.toList.head? = some '/') :
    (directoryOf file).toList.head? = some '/' := by
  obtain ⟨rest, hrest⟩ := List.head?_eq_some_iff.mp h
  obtain ⟨front, hfront⟩ : ∃ front, file.toList.reverse.dropWhile (· ≠ '/') = front ++ ['/'] := by
    rw [hrest, List.reverse_cons]
    refine dropWhile_concat fun hnil => ?_
    simpa using List.dropWhile_eq_nil_iff.mp hnil '/' (by simp)
  rw [directoryOf_eq, hfront]
  split
  · -- nothing but slashes is left
    rename_i hslashes
    cases front with
    | nil => rfl
    | cons c front =>
      have hc : c = '/' := by simpa using List.dropWhile_eq_nil_iff.mp hslashes c (by simp)
      simp [hc]
  · rename_i hkept
    obtain ⟨kept, hkept⟩ := dropWhile_concat hkept
    rw [hkept]
    simp

theorem directoryOf_append {name : String} (h : '/' ∉ name.toList) (text : String) :
    directoryOf (text ++ name) = directoryOf text := by
  have hname : ∀ c ∈ name.toList.reverse, decide (c ≠ '/') = true := by
    intro c hc
    exact decide_eq_true fun he => h (he ▸ List.mem_reverse.mp hc)
  rw [directoryOf_eq, directoryOf_eq, String.toList_append, List.reverse_append,
    List.dropWhile_append_of_pos hname]

theorem directoryOf_slash {text : String} (hn : text.toList ≠ [])
    (h : text.toList.getLast? ≠ some '/') : directoryOf (text ++ "/") = text := by
  have hreverse : (text ++ "/").toList.reverse = '/' :: text.toList.reverse := by simp
  have hkept : text.toList.reverse.dropWhile (· = '/') = text.toList.reverse := by
    rw [← List.head?_reverse] at h
    cases hr : text.toList.reverse with
    | nil => rfl
    | cons c rest =>
      rw [hr] at h
      exact List.dropWhile_cons_of_neg (by simpa using h)
  rw [directoryOf_eq, hreverse, List.dropWhile_cons_of_neg (by simp),
    List.dropWhile_cons_of_pos (by simp), hkept, if_neg (mt List.reverse_eq_nil_iff.mp hn)]
  simp

/-- The directory part of the text of a path is the text of its parent; a root is its own. -/
theorem directoryOf_toString {path : Path} (h : path.isAbsolute = true)
    (hp : ∀ name ∈ path.names, IsName name) : directoryOf path.toString = path.parent.toString := by
  have hparent : path.parent.toString =
      path.anchor.toString ++ "/".intercalate path.names.dropLast :=
    toString_of_isAbsolute h
  rw [hparent, toString_of_isAbsolute h]
  obtain hnames | ⟨front, last, hnames⟩ := List.eq_nil_or_concat path.names
  · rw [hnames]
    rcases toString_anchor h with hr | hr <;> rw [hr] <;> rfl
  rw [List.concat_eq_append] at hnames
  rw [hnames] at hp ⊢
  rw [List.dropLast_concat]
  by_cases hempty : front = []
  · -- the file lies in a root
    subst hempty
    rw [List.nil_append, String.intercalate_singleton, String.intercalate_nil,
      directoryOf_append (hp last (by simp)).no_slash]
    rcases toString_anchor h with hr | hr <;> rw [hr] <;> rfl
  · have htext : path.anchor.toString ++ "/".intercalate (front ++ [last]) =
        path.anchor.toString ++ "/".intercalate front ++ "/" ++ last := by
      rw [String.intercalate_append_of_ne_nil hempty (List.cons_ne_nil _ _),
        String.intercalate_singleton]
      simp only [String.append_assoc]
    rw [htext, directoryOf_append (hp last (by simp)).no_slash]
    refine directoryOf_slash ?_ (getLast?_below hempty fun name hname => hp name (by simp [hname]))
    rcases toString_anchor h with hr | hr <;> simp [hr]

theorem Canonical.directoryOf {text : String} (h : Canonical text) :
    Canonical (directoryOf text) := by
  obtain ⟨path, ha, hp, rfl⟩ := h.exists_path
  have hparent : path.parent.isAbsolute = true := ha
  rw [directoryOf_toString ha hp]
  exact .of_path hparent fun name hname => hp name (List.dropLast_subset _ hname)

end Path

open ImportAlias.Path (Canonical joinTexts ofString)

namespace Settings

variable {current base : Path} {settings : Settings}

theorem isAbsolute_directory (hf : settings.file.toList.head? = some '/') :
    (ofString settings.directory).isAbsolute = true :=
  Path.isAbsolute_ofString_iff.mpr (Path.head?_directoryOf hf)

theorem baseDirectory_of_vacant (hf : settings.file.toList.head? = some '/')
    (hv : settings.baseUrl.isVacant = true) :
    settings.baseDirectory current = .ok (ofString settings.directory).normalize := by
  simp only [baseDirectory, hv, if_true]
  rw [Path.absolute_of_isAbsolute (isAbsolute_directory hf)]

theorem baseDirectory_of_text (hf : settings.file.toList.head? = some '/') {text : String}
    (hn : text ≠ "") (hu : settings.baseUrl = .string text) :
    settings.baseDirectory current =
      .ok (ofString (joinTexts settings.directory text)).normalize := by
  have hv : (Value.string text).isVacant = false := by simp [Value.isVacant, hn]
  simp only [baseDirectory, hu, hv, Bool.false_eq_true, if_false]
  rw [Path.absolute_of_isAbsolute (Path.isAbsolute_div (isAbsolute_directory hf)),
    Path.ofString_joinTexts]

theorem exists_of_baseDirectory (hf : settings.file.toList.head? = some '/')
    (hb : settings.baseDirectory current = .ok base) :
    ∃ path : Path, path.Written ∧ path.isAbsolute = true ∧ base = path.normalize := by
  have hd := isAbsolute_directory hf
  cases hv : settings.baseUrl.isVacant with
  | true =>
    rw [baseDirectory_of_vacant hf hv] at hb
    exact ⟨_, Path.written_ofString _, hd, (Except.ok.inj hb).symm⟩
  | false =>
    cases hu : settings.baseUrl with
    | string text =>
      have hn : text ≠ "" := by simpa [hu, Value.isVacant] using hv
      rw [baseDirectory_of_text hf hn hu] at hb
      refine ⟨_, Path.written_ofString _, ?_, (Except.ok.inj hb).symm⟩
      rw [Path.ofString_joinTexts]
      exact Path.isAbsolute_div hd
    | _ =>
      rw [hu] at hv
      simp [baseDirectory, hu, hv] at hb

/-- Settings with a canonical file, and with a canonical base URL if they have one, have one base
directory, wherever it is asked for: the base URL as it is, or else the directory of the file. -/
theorem exists_baseDirectory_of_canonical (hf : Canonical settings.file)
    (hb : settings.baseUrl = .null ∨ ∃ text, settings.baseUrl = .string text ∧ Canonical text) :
    ∃ base, (∀ current, settings.baseDirectory current = .ok base) ∧
      (settings.baseUrl = .null → base.toString = settings.directory) ∧
      ∀ text, settings.baseUrl = .string text → base.toString = text := by
  have hslash : settings.file.toList.head? = some '/' :=
    Path.isAbsolute_ofString_iff.mp hf.ofString.1
  have hdirectory : Canonical settings.directory := hf.directoryOf
  rcases hb with hb | ⟨text, hb, ht⟩
  · obtain ⟨-, hnormal, htext⟩ := hdirectory.ofString
    refine ⟨_, fun current => baseDirectory_of_vacant hslash (by rw [hb]; rfl), ?_, ?_⟩
    · intro _
      rw [hnormal, htext]
    · intro text h
      cases hb.symm.trans h
  · have hne : text ≠ "" := ht.ne_empty
    refine ⟨_, fun current => baseDirectory_of_text hslash hne hb, ?_, ?_⟩
    · intro h
      cases hb.symm.trans h
    · intro other h
      obtain rfl := Value.string.inj (hb.symm.trans h)
      obtain ⟨habsolute, hnormal, htext⟩ := ht.ofString
      rw [Path.ofString_joinTexts, Path.div_of_isAbsolute habsolute, hnormal, htext]

end Settings

end ImportAlias
