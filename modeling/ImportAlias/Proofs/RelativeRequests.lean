import ImportAlias.Pipeline.Request
import ImportAlias.Proofs.Joining

/-!
# Relative requests

A relative request that is read from a relative path should stay relative, or an
alias takes it for the name of a module. Joining the two resolves the dots at the
start, and puts a `./` back where it sees that one is missing. It looks for one
only when the directory is written with it, and takes any name that starts with a
dot for a relative path.
-/

namespace ImportAlias

open ImportAlias.Path (joined ofString segments_intercalate segments_slash isAbsolute_ofString_iff)

namespace Pipeline.Request

/-- Whether a specifier is read from a directory: the directory itself, the one above it, or a path
that starts from one of them. -/
def IsRelative (specifier : String) : Prop :=
  specifier = "." ∨ specifier = ".." ∨ startsRelative specifier = true

instance : DecidablePred IsRelative :=
  fun _ => inferInstanceAs (Decidable (_ ∨ _ ∨ _))

/-- Whether a request leads below the directory that everything is read from, through a first name
that is not kept apart from a bare specifier: any name if the relative path is written as a lone
dot, and otherwise a name that starts with a dot. -/
def LooksBare (directory specifier : String) : Prop :=
  ∃ first rest, (joined directory specifier).names = first :: rest ∧ first ≠ ".." ∧
    (directory = "." ∨ first.toList.head? = some '.')

theorem startsRelative_iff {specifier : String} :
    startsRelative specifier = true ↔
      ∃ rest, specifier = "." ++ "/" ++ rest ∨ specifier = ".." ++ "/" ++ rest := by
  have hafter : ∀ (start : List Char) (text : String),
      (Text.after? start text.toList).isSome = true ↔ ∃ rest, text = String.ofList start ++ rest := by
    intro start text
    rw [Option.isSome_iff_exists]
    constructor
    · rintro ⟨rest, h⟩
      rw [Text.after?_eq_some_iff] at h
      exact ⟨String.ofList rest, by rw [← String.toList_inj, h]; simp⟩
    · rintro ⟨rest, rfl⟩
      exact ⟨rest.toList, by rw [Text.after?_eq_some_iff]; simp⟩
  rw [startsRelative, Bool.or_eq_true, hafter, hafter, ← exists_or]
  rfl

theorem IsRelative.segments {specifier : String} (h : IsRelative specifier) :
    ∃ rest, Path.segments specifier = "." :: rest ∨ Path.segments specifier = ".." :: rest := by
  obtain rfl | rfl | h := h
  · exact ⟨[], .inl (by decide)⟩
  · exact ⟨[], .inr (by decide)⟩
  · obtain ⟨rest, rfl | rfl⟩ := startsRelative_iff.mp h
    · exact ⟨Path.segments rest, .inl (segments_slash "." rest)⟩
    · exact ⟨Path.segments rest, .inr (segments_slash ".." rest)⟩

theorem IsRelative.isAbsolute {specifier : String} (h : IsRelative specifier) :
    (ofString specifier).isAbsolute = false := by
  have hslash : specifier.toList.head? ≠ some '/' := by
    obtain rfl | rfl | h := h
    · decide
    · decide
    · obtain ⟨rest, rfl | rfl⟩ := startsRelative_iff.mp h <;> simp
  exact Bool.eq_false_iff.mpr (mt isAbsolute_ofString_iff.mp hslash)

theorem isRelative_toString_iff {path : Path} (hw : path.Written)
    (ha : path.isAbsolute = false) :
    IsRelative path.toString ↔ path.names = [] ∨ path.names.head? = some ".." := by
  have hnames : ∀ name ∈ path.names, name ≠ "" ∧ name ≠ "." ∧ '/' ∉ name.toList :=
    fun name hn => hw.names hn
  obtain ⟨anchor, names⟩ := path
  obtain rfl : anchor = .relative := by simpa [Path.isAbsolute] using ha
  cases names with
  | nil => exact iff_of_true (.inl rfl) (.inl rfl)
  | cons first rest =>
    have htext : Path.toString ⟨.relative, first :: rest⟩ = "/".intercalate (first :: rest) :=
      String.empty_append
    rw [htext]
    constructor
    · intro h
      obtain ⟨others, hsegments⟩ := h.segments
      rw [segments_intercalate (List.cons_ne_nil _ _) fun name hn => (hnames name hn).2.2]
        at hsegments
      obtain hdot | hdots := hsegments
      · obtain ⟨rfl, -⟩ := List.cons.inj hdot
        exact absurd rfl (hnames "." List.mem_cons_self).2.1
      · obtain ⟨rfl, -⟩ := List.cons.inj hdots
        exact .inr rfl
    · intro h
      obtain rfl : first = ".." := by simpa using h
      cases rest with
      | nil => exact .inr (.inl (by decide))
      | cons second rest =>
        have hbelow : "/".intercalate (".." :: second :: rest) =
            ".." ++ "/" ++ "/".intercalate (second :: rest) := String.intercalate_cons_cons
        exact .inr (.inr (startsRelative_iff.mpr ⟨_, .inr hbelow⟩))

theorem isAbsolute_joined {directory specifier : String} (hd : IsRelative directory)
    (hs : IsRelative specifier) : (joined directory specifier).isAbsolute = false := by
  have hjoin : (ofString directory / ofString specifier).isAbsolute = false := by
    rw [Path.div_of_relative hs.isAbsolute]
    exact hd.isAbsolute
  exact hjoin

theorem getLast?_foldl_walk (names : List String) {trail : List String}
    (h : trail.getLast? = some "..") :
    (names.foldl (Path.walk false) trail).getLast? = some ".." := by
  induction names generalizing trail with
  | nil => exact h
  | cons name names ih =>
    apply ih
    obtain ⟨above, rfl⟩ := List.getLast?_eq_some_iff.mp h
    have hentered : ∀ last, (last :: (above ++ [".."])).getLast? = some ".." := by
      intro last
      rw [← List.cons_append]
      exact List.getLast?_concat
    by_cases hname : name = ".."
    · cases above with
      | nil => simp [Path.walk, hname]
      | cons last above => by_cases hlast : last = ".." <;> simp_all [Path.walk]
    · simp [Path.walk, hname, hentered]

theorem head?_joined {directory specifier : String} (hs : IsRelative specifier)
    (hd : IsRelative directory) (hn : (ofString directory).names.head? = some "..") :
    (joined directory specifier).names.head? = some ".." := by
  obtain ⟨rest, hrest⟩ := List.head?_eq_some_iff.mp hn
  have hrelative : (ofString directory / ofString specifier).isAbsolute = false :=
    isAbsolute_joined hd hs
  rw [joined, Path.names_normalize_of_relative hrelative, List.head?_reverse,
    Path.div_of_relative hs.isAbsolute, hrest]
  exact getLast?_foldl_walk (rest ++ (ofString specifier).names) rfl

/-- A relative path is a lone dot, starts with a dot and a slash, or leads out at once. -/
theorem IsRelative.cases {directory : String} (h : IsRelative directory) :
    directory = "." ∨ (Text.after? ['.', '/'] directory.toList).isSome = true ∨
      (Text.after? ['.', '/'] directory.toList).isSome = false ∧
        (ofString directory).names.head? = some ".." := by
  obtain rfl | rfl | h := h
  · exact .inl rfl
  · exact .inr (.inr (by decide))
  · obtain ⟨rest, rfl | rfl⟩ := startsRelative_iff.mp h
    · exact .inr (.inl (by simp [Text.after?]))
    · refine .inr (.inr ⟨by simp [Text.after?], ?_⟩)
      rw [Path.names_slash]
      rfl

theorem head?_toString_joined {directory specifier first : String} {rest : List String}
    (hd : IsRelative directory) (hs : IsRelative specifier)
    (hn : (joined directory specifier).names = first :: rest) :
    (joined directory specifier).toString.toList.head? = first.toList.head? := by
  have hfirst : first ∈ (joined directory specifier).names := by simp [hn]
  have hletters := (Path.written_joined directory specifier).names hfirst
  have ha := isAbsolute_joined hd hs
  generalize joined directory specifier = path at hn ha
  obtain ⟨anchor, names⟩ := path
  obtain rfl : anchor = .relative := by simpa [Path.isAbsolute] using ha
  obtain rfl : names = first :: rest := hn
  have htext : Path.toString ⟨.relative, first :: rest⟩ = "/".intercalate (first :: rest) :=
    String.empty_append
  rw [htext]
  exact Path.head?_intercalate hletters.1 rest

theorem isRelative_dot_append (text : String) : IsRelative ("./" ++ text) :=
  .inr (.inr (startsRelative_iff.mpr ⟨text, .inl rfl⟩))

section Joined

variable {directory specifier first : String} {rest : List String}

theorem looksBare_iff (hn : (joined directory specifier).names = first :: rest)
    (hfirst : first ≠ "..") :
    LooksBare directory specifier ↔ directory = "." ∨ first.toList.head? = some '.' := by
  constructor
  · rintro ⟨name, others, hnames, -, hbare⟩
    rw [hn] at hnames
    obtain ⟨rfl, -⟩ := List.cons.inj hnames
    exact hbare
  · intro hbare
    exact ⟨first, rest, hn, hfirst, hbare⟩

/-- At its start or out of it, the joined text is relative with or without a dot in front. -/
theorem isRelative_joinRequest (hd : IsRelative directory) (hs : IsRelative specifier)
    (hout : (joined directory specifier).names = [] ∨
      (joined directory specifier).names.head? = some "..") :
    IsRelative (Path.joinRequest directory specifier) := by
  have hwritten := Path.written_joined directory specifier
  rw [Path.joinRequest_eq]
  split
  · exact isRelative_dot_append _
  · exact (isRelative_toString_iff hwritten (isAbsolute_joined hd hs)).mpr hout

/-- Below its start, the joined text is relative just if a dot is put in front of it. -/
theorem isRelative_joinRequest_iff_of_below (hd : IsRelative directory)
    (hs : IsRelative specifier) (hn : (joined directory specifier).names = first :: rest)
    (hfirst : first ≠ "..") :
    IsRelative (Path.joinRequest directory specifier) ↔
      directory ≠ "." ∧ first.toList.head? ≠ some '.' := by
  have hwritten := Path.written_joined directory specifier
  have hbare : ¬ IsRelative (joined directory specifier).toString := by
    rw [isRelative_toString_iff hwritten (isAbsolute_joined hd hs), hn]
    simp [hfirst]
  have hslash : first.toList.head? ≠ some '/' := fun h =>
    (hwritten.names (by simp [hn])).2.2 (List.mem_of_head? h)
  rw [Path.joinRequest_eq, head?_toString_joined hd hs hn]
  by_cases hdot : first.toList.head? = some '.'
  · rw [if_neg fun h => h.2.1 hdot]
    exact iff_of_false hbare fun h => h.2 hdot
  · obtain rfl | hstart | ⟨-, hdots⟩ := hd.cases
    · rw [if_neg (by simp [Text.after?])]
      exact iff_of_false hbare fun h => h.1 rfl
    · have hne : directory ≠ "." := by
        rintro rfl
        simp [Text.after?] at hstart
      rw [if_pos ⟨hstart, hdot, hslash⟩]
      exact iff_of_true (isRelative_dot_append _) ⟨hne, hdot⟩
    · have hout := head?_joined hs hd hdots
      simp [hn, hfirst] at hout

theorem joinRequest_isRelative_iff (hd : IsRelative directory) (hs : IsRelative specifier) :
    IsRelative (Path.joinRequest directory specifier) ↔ ¬ LooksBare directory specifier := by
  by_cases hout : (joined directory specifier).names = [] ∨
      (joined directory specifier).names.head? = some ".."
  · have hkept : ¬ LooksBare directory specifier := by
      rintro ⟨name, others, hn, hname, -⟩
      simp [hn, hname] at hout
    exact iff_of_true (isRelative_joinRequest hd hs hout) hkept
  · obtain ⟨name, others, hn⟩ := List.exists_cons_of_ne_nil (not_or.mp hout).1
    have hname : name ≠ ".." := by simpa [hn] using hout
    rw [isRelative_joinRequest_iff_of_below hd hs hn hname, looksBare_iff hn hname, not_or]

end Joined

/-- A relative request below a relative path stays relative exactly unless it looks bare. -/
theorem inner_isRelative_iff {request : Request} {specifier directory : String}
    (hr : request.request = some specifier) (hs : startsRelative specifier = true)
    (hp : request.relativePath = some directory) (hd : IsRelative directory) :
    ∃ inner, request.inner = some inner ∧
      (IsRelative inner ↔ ¬ LooksBare directory specifier) := by
  refine ⟨Path.joinRequest directory specifier, ?_, joinRequest_isRelative_iff hd (.inr (.inr hs))⟩
  have hspecifier : specifier ≠ "" := by
    rintro rfl
    exact absurd hs (by decide)
  have hdirectory : directory ≠ "" := by
    rintro rfl
    exact absurd hd (by decide)
  have hwanted : request.wanted? = some specifier := by simp [wanted?, hr, hspecifier]
  have hpath : request.relativePath.filter (· ≠ "") = some directory := by simp [hp, hdirectory]
  rw [inner, hwanted]
  simp only [hpath, hs, if_true]

/-- A request for `./x` from a relative path. -/
def requestIn (directory : String) : Request :=
  ⟨"/p", some "./x", some directory, "", none, []⟩

theorem inner_isRelative_iff_src :
    (requestIn "./src").request = some "./x" ∧ startsRelative "./x" = true ∧
    (requestIn "./src").relativePath = some "./src" ∧ IsRelative "./src" ∧
    ∃ inner, (requestIn "./src").inner = some inner ∧
      (IsRelative inner ↔ ¬ LooksBare "./src" "./x") := by
  have hspecifier : startsRelative "./x" = true := by decide
  have hdirectory : IsRelative "./src" := by decide
  exact ⟨rfl, hspecifier, rfl, hdirectory, inner_isRelative_iff rfl hspecifier rfl hdirectory⟩

/-- From a directory whose name starts with a dot, and from the start itself, a relative request
becomes a bare one. -/
theorem not_isRelative_inner :
    startsRelative "./x" = true ∧ IsRelative "./.config" ∧ IsRelative "." ∧
    (requestIn "./.config").inner = some ".config/x" ∧ ¬ IsRelative ".config/x" ∧
    (requestIn ".").inner = some "x" ∧ ¬ IsRelative "x" := by
  decide

end Pipeline.Request

end ImportAlias
