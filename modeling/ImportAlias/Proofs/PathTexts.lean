import ImportAlias.Proofs.Landing

/-!
# Paths and their texts

A path is read from a text and written as one. A name has letters, none of them
a slash, so every path that has been read is read back from its own text, and so
is what remains of it when it is normalized. Joining two texts, with a slash
between them where one is missing, is joining the paths that they are read as.
-/

namespace ImportAlias

namespace Path

/-- A path that is read from a text. -/
def Written (path : Path) : Prop :=
  ∃ text, ofString text = path

theorem not_mem_of_mem_splitOn {text part : List Char} {c : Char} (h : part ∈ text.splitOn c) :
    c ∉ part := by
  induction text generalizing part with
  | nil =>
    rw [List.splitOn_nil, List.mem_singleton] at h
    rw [h]
    exact List.not_mem_nil
  | cons head text ih =>
    rw [List.splitOn_cons_eq_if_modifyHead] at h
    split at h
    · obtain rfl | h := List.mem_cons.mp h
      · exact List.not_mem_nil
      · exact ih h
    · rename_i hne
      obtain ⟨first, rest, hs⟩ := List.exists_cons_of_ne_nil (List.splitOn_ne_nil c text)
      rw [hs] at h ih
      rw [List.modifyHead_cons] at h
      obtain rfl | h := List.mem_cons.mp h
      · have hfirst := ih List.mem_cons_self
        simp only [List.mem_cons, not_or]
        exact ⟨fun he => hne (by simp [he]), hfirst⟩
      · exact ih (List.mem_cons_of_mem _ h)

theorem Written.names {path : Path} (hw : path.Written) {name : String} (hn : name ∈ path.names) :
    name ≠ "" ∧ name ≠ "." ∧ '/' ∉ name.toList := by
  obtain ⟨text, rfl⟩ := hw
  obtain ⟨hmem, hkept⟩ := List.mem_filter.mp hn
  obtain ⟨part, hpart, rfl⟩ := List.mem_map.mp hmem
  rw [String.toList_ofList]
  refine ⟨?_, ?_, not_mem_of_mem_splitOn hpart⟩ <;> simp_all

theorem segments_slash (text other : String) :
    segments (text ++ "/" ++ other) = segments text ++ segments other := by
  rw [segments, segments, segments, ← List.map_append, ← List.splitOn_append_cons_self]
  simp

theorem names_slash (text other : String) :
    (ofString (text ++ "/" ++ other)).names = (ofString text).names ++ (ofString other).names := by
  simp only [ofString, segments_slash, List.filter_append]

theorem segments_intercalate {names : List String} (hn : names ≠ [])
    (hs : ∀ name ∈ names, '/' ∉ name.toList) : segments ("/".intercalate names) = names := by
  have hsplit : (['/'].intercalate (names.map String.toList)).splitOn '/' =
      names.map String.toList := by
    refine List.splitOn_intercalate '/' (fun part hp => ?_) (by simpa using hn)
    obtain ⟨name, hname, rfl⟩ := List.mem_map.mp hp
    exact hs name hname
  rw [segments, String.toList_intercalate]
  change ((['/'].intercalate (names.map String.toList)).splitOn '/').map String.ofList = names
  rw [hsplit]
  simp

theorem head?_intercalate {first : String} (hf : first ≠ "") (rest : List String) :
    ("/".intercalate (first :: rest)).toList.head? = first.toList.head? := by
  obtain ⟨c, cs, hl⟩ := List.exists_cons_of_ne_nil (mt String.toList_eq_nil_iff.mp hf)
  rw [String.toList_intercalate]
  cases rest <;> simp [List.intercalate, hl]

theorem ofText_ne_relative_iff {text : List Char} :
    Anchor.ofText text ≠ .relative ↔ text.head? = some '/' := by
  fun_cases Anchor.ofText text with
  | case1 => simp
  | case2 => simp
  | case3 => simp
  | case4 _ _ _ hother =>
    refine iff_of_false (not_not_intro rfl) fun h => ?_
    obtain ⟨rest, rfl⟩ := List.head?_eq_some_iff.mp h
    exact hother rest rfl

theorem isAbsolute_ofString_iff {text : String} :
    (ofString text).isAbsolute = true ↔ text.toList.head? = some '/' := by
  rw [← ofText_ne_relative_iff, isAbsolute, decide_eq_true_iff]
  rfl

/-- What stands behind a text does not change its anchor, unless a slash comes behind a slash. -/
theorem ofText_append {text rest : List Char} (hn : text ≠ [])
    (h : text.getLast? ≠ some '/' ∨ rest.head? ≠ some '/') :
    Anchor.ofText (text ++ rest) = Anchor.ofText text := by
  obtain - | ⟨c, - | ⟨d, - | ⟨e, text⟩⟩⟩ := text
  · exact absurd rfl hn
  · by_cases hc : c = '/'
    · subst hc
      cases rest with
      | nil => rfl
      | cons d rest =>
        have hd : d ≠ '/' := by simpa using h
        simp [Anchor.ofText, hd]
    · simp [Anchor.ofText, hc]
  · by_cases hc : c = '/'
    · by_cases hd : d = '/'
      · subst hc hd
        cases rest with
        | nil => rfl
        | cons e rest =>
          have he : e ≠ '/' := by simpa using h
          simp [Anchor.ofText, he]
      · simp [Anchor.ofText, hc, hd]
    · simp [Anchor.ofText, hc]
  · by_cases hc : c = '/' <;> by_cases hd : d = '/' <;> by_cases he : e = '/' <;>
      simp [Anchor.ofText, hc, hd, he]

theorem ofText_toString_append {anchor : Anchor} {text : List Char}
    (h : text.head? ≠ some '/') : Anchor.ofText (anchor.toString.toList ++ text) = anchor := by
  cases anchor with
  | relative =>
    cases text with
    | nil => rfl
    | cons c text =>
      have hc : c ≠ '/' := by simpa using h
      simp [Anchor.toString, Anchor.ofText, hc]
  | root => exact ofText_append (List.cons_ne_nil '/' []) (.inr h)
  | doubleRoot => exact ofText_append (List.cons_ne_nil '/' ['/']) (.inr h)

theorem names_toString_append (anchor : Anchor) (text : String) :
    (ofString (anchor.toString ++ text)).names = (ofString text).names := by
  have hslash : ∀ other : String, (ofString ("/" ++ other)).names = (ofString other).names := by
    intro other
    have hempty : (ofString ("" ++ "/" ++ other)).names = _ := names_slash "" other
    simpa [ofString, segments] using hempty
  cases anchor with
  | relative => simp [Anchor.toString]
  | root => exact hslash text
  | doubleRoot =>
    have htext : Anchor.doubleRoot.toString ++ text = "/" ++ ("/" ++ text) := by
      rw [← String.append_assoc]
      rfl
    rw [htext, hslash, hslash]

/-- A path is read back from its text if its names are such as are read. -/
theorem ofString_toString {path : Path}
    (hn : ∀ name ∈ path.names, name ≠ "" ∧ name ≠ "." ∧ '/' ∉ name.toList) :
    ofString path.toString = path := by
  obtain ⟨anchor, names⟩ := path
  by_cases hempty : names = []
  · subst hempty
    cases anchor <;> rfl
  · have htext : toString ⟨anchor, names⟩ = anchor.toString ++ "/".intercalate names := by
      cases names with
      | nil => exact absurd rfl hempty
      | cons first rest => cases anchor <;> rfl
    have hhead : ("/".intercalate names).toList.head? ≠ some '/' := by
      obtain ⟨first, rest, rfl⟩ := List.exists_cons_of_ne_nil hempty
      have hfirst := hn first List.mem_cons_self
      rw [head?_intercalate hfirst.1]
      exact fun h => hfirst.2.2 (List.mem_of_head? h)
    have hanchor : (ofString (toString ⟨anchor, names⟩)).anchor = anchor := by
      rw [htext, ofString, String.toList_append]
      exact ofText_toString_append hhead
    have hnames : (ofString (toString ⟨anchor, names⟩)).names = names := by
      rw [htext, names_toString_append, ofString,
        segments_intercalate hempty fun name h => (hn name h).2.2]
      exact List.filter_eq_self.mpr fun name h =>
        decide_eq_true ⟨(hn name h).1, (hn name h).2.1⟩
    generalize ofString (toString ⟨anchor, names⟩) = read at hanchor hnames
    cases read
    simp_all

theorem Written.ofString_toString {path : Path} (hw : path.Written) :
    ofString path.toString = path :=
  Path.ofString_toString fun _ hn => hw.names hn

theorem written_ofString (text : String) : (ofString text).Written :=
  ⟨text, rfl⟩

theorem written_of_names {path : Path}
    (h : ∀ name ∈ path.names, name ≠ "" ∧ name ≠ "." ∧ '/' ∉ name.toList) : path.Written :=
  ⟨_, Path.ofString_toString h⟩

theorem Written.parent {path : Path} (hw : path.Written) : path.parent.Written :=
  written_of_names fun _ hn => hw.names (List.dropLast_subset _ hn)

theorem Written.div {path other : Path} (hp : path.Written) (ho : other.Written) :
    (path / other).Written := by
  cases ha : other.isAbsolute with
  | true =>
    rw [div_of_isAbsolute ha]
    exact ho
  | false =>
    rw [div_of_relative ha]
    refine written_of_names fun name hn => ?_
    obtain hn | hn := List.mem_append.mp hn
    · exact hp.names hn
    · exact ho.names hn

theorem walk_subset (absolute : Bool) (trail : List String) (name : String) :
    walk absolute trail name ⊆ name :: trail := by
  unfold walk
  split
  · rename_i hdots
    subst hdots
    split
    · split <;> simp
    · split
      · exact List.Subset.refl _
      · intro other ho
        simp [ho]
  · exact List.Subset.refl _

theorem names_normalize_subset (path : Path) : path.normalize.names ⊆ path.names := by
  have hwalk : ∀ names trail : List String,
      names.foldl (walk path.isAbsolute) trail ⊆ names ++ trail := by
    intro names
    induction names with
    | nil => exact fun trail => List.Subset.refl trail
    | cons name names ih =>
      intro trail other ho
      have hrest := ih _ ho
      obtain hn | hn := List.mem_append.mp hrest
      · simp [hn]
      · have hstep := walk_subset _ _ _ hn
        simp only [List.cons_append, List.mem_cons, List.mem_append] at hstep ⊢
        tauto
  intro name hn
  simpa using hwalk path.names [] (List.mem_reverse.mp hn)

theorem Written.normalize {path : Path} (hw : path.Written) : path.normalize.Written :=
  written_of_names fun _ hn => hw.names (names_normalize_subset path hn)

/-- One text read from another, by the texts alone: it stands behind the other one, with a slash
between them unless the other one is empty or closes with a slash, or it stands alone if it starts
with one. -/
def joinTexts (base other : String) : String :=
  if other.toList.head? = some '/' then other
  else if base = "" ∨ base.toList.getLast? = some '/' then base ++ other
  else base ++ "/" ++ other

theorem names_append {base : String} (h : base.toList.getLast? = some '/') (other : String) :
    (ofString (base ++ other)).names = (ofString base).names ++ (ofString other).names := by
  obtain ⟨front, hfront⟩ := List.getLast?_eq_some_iff.mp h
  have hbase : base = String.ofList front ++ "/" := by
    rw [← String.toList_inj, hfront]
    simp
  have hclosed : (ofString base).names = (ofString (String.ofList front)).names := by
    have hbehind := names_slash (String.ofList front) ""
    rw [String.append_empty, ← hbase] at hbehind
    rw [hbehind]
    exact List.append_nil _
  rw [hclosed, ← names_slash, ← hbase]

/-- Joined texts are read as the one path read from the other. -/
theorem ofString_joinTexts (base other : String) :
    ofString (joinTexts base other) = ofString base / ofString other := by
  unfold joinTexts
  by_cases ha : other.toList.head? = some '/'
  · rw [if_pos ha, div_of_isAbsolute (isAbsolute_ofString_iff.mpr ha)]
  · have hrelative : (ofString other).isAbsolute = false :=
      Bool.eq_false_iff.mpr (mt isAbsolute_ofString_iff.mp ha)
    rw [if_neg ha, div_of_relative hrelative]
    by_cases hempty : base = ""
    · subst hempty
      have hanchor : (ofString other).anchor = .relative := by simpa [isAbsolute] using hrelative
      rw [if_pos (.inl rfl), String.empty_append]
      exact congrArg₂ Path.mk hanchor rfl
    · have hn : base.toList ≠ [] := mt String.toList_eq_nil_iff.mp hempty
      by_cases hslash : base.toList.getLast? = some '/'
      · have hanchor : Anchor.ofText (base ++ other).toList = Anchor.ofText base.toList := by
          rw [String.toList_append]
          exact ofText_append hn (.inr ha)
        rw [if_pos (.inr hslash), ← names_append hslash]
        exact congrArg₂ Path.mk hanchor rfl
      · have hanchor : Anchor.ofText (base ++ "/" ++ other).toList = Anchor.ofText base.toList := by
          rw [String.append_assoc, String.toList_append]
          exact ofText_append hn (.inl hslash)
        rw [if_neg (not_or.mpr ⟨hempty, hslash⟩), ← names_slash]
        exact congrArg₂ Path.mk hanchor rfl

end Path

end ImportAlias
