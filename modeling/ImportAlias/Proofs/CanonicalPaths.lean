import ImportAlias.Proofs.Joining

/-!
# Canonical paths

A path is canonical if nothing in it is left to resolve: it starts with one slash,
or with exactly two, and behind them stand names with single slashes between them,
none of them empty or made of one or two dots. What an absolute path is normalized
to is canonical, and a canonical path stays as it is, whatever directory it is read
from.
-/

namespace ImportAlias

namespace Path

/-- A name of a file or a directory, rather than an empty part or a direction. -/
structure IsName (name : String) : Prop where
  ne_empty : name ≠ ""
  ne_dot : name ≠ "."
  ne_dots : name ≠ ".."
  no_slash : '/' ∉ name.toList

theorem written_of_isName {path : Path} (h : ∀ name ∈ path.names, IsName name) : path.Written :=
  written_of_names fun name hn => ⟨(h name hn).ne_empty, (h name hn).ne_dot, (h name hn).no_slash⟩

/-- Names behind a slash, or behind two. -/
inductive Canonical : String → Prop
  | below {root : String} {place : List String} (hr : root = "/" ∨ root = "//")
      (hp : ∀ name ∈ place, IsName name) : Canonical (root ++ "/".intercalate place)

theorem getLast?_intercalate {place : List String} (hn : place ≠ [])
    (hp : ∀ name ∈ place, name ≠ "" ∧ '/' ∉ name.toList) :
    ("/".intercalate place).toList ≠ [] ∧ ("/".intercalate place).toList.getLast? ≠ some '/' := by
  obtain ⟨front, last, rfl⟩ := List.eq_nil_or_concat place |>.resolve_left hn
  rw [List.concat_eq_append] at hp ⊢
  obtain ⟨hempty, hslash⟩ := hp last (by simp)
  have hlast : last.toList ≠ [] := mt String.toList_eq_nil_iff.mp hempty
  have htext : ∃ before, ("/".intercalate (front ++ [last])).toList = before ++ last.toList := by
    by_cases hf : front = []
    · exact ⟨[], by simp [hf]⟩
    · refine ⟨("/".intercalate front ++ "/").toList, ?_⟩
      rw [String.intercalate_append_of_ne_nil hf (List.cons_ne_nil _ _),
        String.intercalate_singleton, String.toList_append]
  obtain ⟨before, hbefore⟩ := htext
  rw [hbefore, List.getLast?_append_of_ne_nil _ hlast]
  exact ⟨by simp [hlast], fun h => hslash (List.mem_of_getLast? h)⟩

theorem getLast?_below {root : String} {place : List String} (hn : place ≠ [])
    (hp : ∀ name ∈ place, IsName name) :
    (root ++ "/".intercalate place).toList.getLast? ≠ some '/' := by
  obtain ⟨hne, hlast⟩ := getLast?_intercalate hn fun name hname =>
    ⟨(hp name hname).ne_empty, (hp name hname).no_slash⟩
  rwa [String.toList_append, List.getLast?_append_of_ne_nil _ hne]

theorem toString_of_isAbsolute {path : Path} (h : path.isAbsolute = true) :
    path.toString = path.anchor.toString ++ "/".intercalate path.names := by
  obtain ⟨anchor, names⟩ := path
  cases anchor with
  | relative => simp [isAbsolute] at h
  | root => rfl
  | doubleRoot => rfl

theorem toString_anchor {path : Path} (h : path.isAbsolute = true) :
    path.anchor.toString = "/" ∨ path.anchor.toString = "//" := by
  obtain ⟨anchor, names⟩ := path
  cases anchor with
  | relative => simp [isAbsolute] at h
  | root => exact .inl rfl
  | doubleRoot => exact .inr rfl

theorem exists_anchor {root : String} (h : root = "/" ∨ root = "//") :
    ∃ anchor : Anchor, anchor ≠ .relative ∧ anchor.toString = root := by
  rcases h with rfl | rfl
  · exact ⟨.root, nofun, rfl⟩
  · exact ⟨.doubleRoot, nofun, rfl⟩

theorem Canonical.of_path {path : Path} (h : path.isAbsolute = true)
    (hn : ∀ name ∈ path.names, IsName name) : Canonical path.toString := by
  rw [toString_of_isAbsolute h]
  exact .below (toString_anchor h) hn

theorem Canonical.ne_empty {text : String} (h : Canonical text) : text ≠ "" := by
  obtain ⟨hr, -⟩ := h
  rcases hr with rfl | rfl <;> simp

theorem Canonical.exists_path {text : String} (h : Canonical text) :
    ∃ path : Path, path.isAbsolute = true ∧ (∀ name ∈ path.names, IsName name) ∧
      path.toString = text := by
  cases h with
  | @below root place hr hp =>
    obtain ⟨anchor, hanchor, rfl⟩ := exists_anchor hr
    have habsolute : isAbsolute ⟨anchor, place⟩ = true := by simpa [isAbsolute] using hanchor
    exact ⟨⟨anchor, place⟩, habsolute, hp, toString_of_isAbsolute habsolute⟩

theorem normalize_eq_self {path : Path} (h : path.isAbsolute = true)
    (hn : ∀ name ∈ path.names, IsName name) : path.normalize = path := by
  rw [normalize_of_isAbsolute h, landing_eq_self fun hdots => (hn _ hdots).ne_dots rfl]

theorem Canonical.ofString {text : String} (h : Canonical text) :
    (ofString text).isAbsolute = true ∧ (ofString text).normalize = ofString text ∧
      (ofString text).toString = text := by
  obtain ⟨path, habsolute, hn, rfl⟩ := h.exists_path
  rw [(written_of_isName hn).ofString_toString]
  exact ⟨habsolute, normalize_eq_self habsolute hn, rfl⟩

theorem absolute_of_isAbsolute {path : Path} (h : path.isAbsolute = true) (base : Path) :
    path.absolute base = path.normalize := by
  rw [absolute, div_of_isAbsolute h]

/-- Read from any directory, and made absolute wherever this is, a canonical text stays as it is. -/
theorem Canonical.absolute_eq {text : String} (h : Canonical text) (directory : String)
    (base : Path) : ((Path.ofString (joinTexts directory text)).absolute base).toString = text := by
  obtain ⟨habsolute, hnormal, htext⟩ := h.ofString
  rw [ofString_joinTexts, div_of_isAbsolute habsolute, absolute_of_isAbsolute habsolute, hnormal,
    htext]

theorem isName_of_mem_normalize {path : Path} (hw : path.Written) (h : path.isAbsolute = true)
    {name : String} (hn : name ∈ path.normalize.names) : IsName name := by
  obtain ⟨hempty, hdot, hslash⟩ := hw.normalize.names hn
  refine ⟨hempty, hdot, ?_, hslash⟩
  rintro rfl
  rw [normalize_of_isAbsolute h] at hn
  exact dots_not_mem_landing _ hn

theorem canonical_normalize {path : Path} (hw : path.Written) (h : path.isAbsolute = true) :
    Canonical path.normalize.toString :=
  .of_path h fun _ hn => isName_of_mem_normalize hw h hn

/-- What a path is resolved to has nothing left to resolve. -/
theorem canonical_resolve {current path : Path} (hc : current.anchor = .root)
    (hw : current.Written) (hp : path.Written) (hr : path.isRepresentable = true) :
    (path.resolve current).isAbsolute = true ∧
      ∀ name ∈ (path.resolve current).names, IsName name := by
  have hsingle : Written ⟨path.anchor.single, path.names⟩ :=
    written_of_names fun _ hn => hp.names hn
  have habsolute : (current / ⟨path.anchor.single, path.names⟩).isAbsolute = true :=
    isAbsolute_div (isAbsolute_of_root hc)
  rw [resolve, if_pos hr]
  exact ⟨habsolute, fun _ hn => isName_of_mem_normalize (hw.div hsingle) habsolute hn⟩

/-- Components are followed from a place one after the other: empty ones and single dots are
skipped, two dots leave the last name, if there is one, and a name is entered. -/
inductive Follows : List String → List String → List String → Prop
  | ends (place : List String) : Follows place [] place
  | skips {place rest last : List String} {component : String}
      (hc : component = "" ∨ component = ".") (h : Follows place rest last) :
    Follows place (component :: rest) last
  | leaves {place rest last : List String} (h : Follows place.dropLast rest last) :
    Follows place (".." :: rest) last
  | enters {place rest last : List String} {name : String}
      (hn : name ≠ "" ∧ name ≠ "." ∧ name ≠ "..") (h : Follows (place ++ [name]) rest last) :
    Follows place (name :: rest) last

theorem follows_landing (names components : List String) :
    Follows (landing names) components
      (landing (names ++ components.filter fun name => name ≠ "" ∧ name ≠ ".")) := by
  induction components generalizing names with
  | nil =>
    rw [List.filter_nil, List.append_nil]
    exact .ends _
  | cons component rest ih =>
    by_cases hc : component = "" ∨ component = "."
    · rw [List.filter_cons_of_neg (by simpa [or_iff_not_imp_left] using hc)]
      exact .skips hc (ih names)
    rw [List.filter_cons_of_pos (by simpa using hc), List.append_cons names component]
    have hrest := ih (names ++ [component])
    rw [landing_concat] at hrest
    by_cases hdots : component = ".."
    · subst hdots
      rw [if_pos rfl] at hrest
      exact .leaves hrest
    · rw [if_neg hdots] at hrest
      rw [not_or] at hc
      exact .enters ⟨hc.1, hc.2, hdots⟩ hrest

/-- A text that is read from an absolute directory and normalized has the names of the place that
its parts are followed to. -/
theorem follows_normalize {base : Path} (hb : base.isAbsolute = true) (hn : base.normalize = base)
    {text : String} (ht : (ofString text).isAbsolute = false) :
    Follows base.names (segments text) (base / ofString text).normalize.names := by
  have hnames : landing base.names = base.names := by
    have := congrArg names hn
    rwa [normalize_of_isAbsolute hb] at this
  have hfollows := follows_landing base.names (segments text)
  rw [hnames] at hfollows
  rw [normalize_of_isAbsolute (isAbsolute_div hb), div_of_relative ht]
  exact hfollows

end Path

end ImportAlias
