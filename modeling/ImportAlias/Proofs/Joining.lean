import ImportAlias.Proofs.PathTexts

/-!
# Joining and places

A request that has been joined onto a directory is read instead of the two of
them, so from wherever it is read, it has to lead to where the request leads from
the directory. Joining resolves each `..` before it is known where the walk
starts, and keeps those that leave the start. A walk from an absolute directory
ends at the same place if it follows what is kept.
-/

namespace ImportAlias

namespace Path

/-- A trail that a walk along its own names leaves behind. -/
def Settled (absolute : Bool) : List String → Prop
  | [] => True
  | name :: rest => walk absolute rest name = name :: rest ∧ Settled absolute rest

theorem settled_walk {absolute : Bool} {trail : List String} (h : Settled absolute trail)
    (name : String) : Settled absolute (walk absolute trail name) := by
  by_cases hname : name = ".."
  · subst hname
    cases trail with
    | nil => cases absolute <;> simp [walk, Settled]
    | cons last rest =>
      by_cases hlast : last = ".."
      · have hkept : walk absolute (last :: rest) ".." = ".." :: last :: rest := by
          simp [walk, hlast]
        rw [hkept]
        exact ⟨hkept, h⟩
      · have hleft : walk absolute (last :: rest) ".." = rest := by simp [walk, hlast]
        rw [hleft]
        exact h.2
  · have hentered : walk absolute trail name = name :: trail := by simp [walk, hname]
    rw [hentered]
    exact ⟨hentered, h⟩

theorem settled_foldl {absolute : Bool} (names : List String) {trail : List String}
    (h : Settled absolute trail) : Settled absolute (names.foldl (walk absolute) trail) := by
  induction names generalizing trail with
  | nil => exact h
  | cons name names ih => exact ih (settled_walk h name)

theorem foldl_reverse_of_settled {absolute : Bool} {trail : List String}
    (h : Settled absolute trail) : trail.reverse.foldl (walk absolute) [] = trail := by
  induction trail with
  | nil => rfl
  | cons name rest ih =>
    rw [List.reverse_cons, List.foldl_append, ih h.2]
    exact h.1

theorem normalize_normalize (path : Path) : path.normalize.normalize = path.normalize := by
  have hsettled := settled_foldl path.names (show Settled path.isAbsolute [] from trivial)
  have hagain := foldl_reverse_of_settled hsettled
  exact congrArg (fun trail => (⟨path.anchor, trail.reverse⟩ : Path)) hagain

/-- What a relative walk makes of a name leads on like the name itself. -/
theorem foldl_walk_reverse (start trail : List String) (name : String) :
    (walk false trail name).reverse.foldl (walk true) start =
      walk true (trail.reverse.foldl (walk true) start) name := by
  by_cases hname : name = ".."
  · subst hname
    cases trail with
    | nil => rfl
    | cons last rest =>
      by_cases hlast : last = ".."
      · simp [walk, hlast]
      · -- the last name is entered and left again
        simp [walk, hlast]
  · simp [walk, hname]

theorem foldl_normalized (start names : List String) :
    (names.foldl (walk false) []).reverse.foldl (walk true) start =
      names.foldl (walk true) start := by
  induction names using List.reverseRecOn with
  | nil => rfl
  | append_singleton names name ih =>
    rw [List.foldl_append, List.foldl_append, ← ih]
    exact foldl_walk_reverse start _ name

theorem isAbsolute_normalize (path : Path) : path.normalize.isAbsolute = path.isAbsolute :=
  rfl

theorem normalize_of_isAbsolute {path : Path} (h : path.isAbsolute = true) :
    path.normalize = ⟨path.anchor, landing path.names⟩ := by
  rw [normalize, h]
  rfl

theorem names_normalize_of_relative {path : Path} (h : path.isAbsolute = false) :
    path.normalize.names = (path.names.foldl (walk false) []).reverse := by
  rw [normalize, h]

/-- Read from an absolute directory, a path leads where its normalized form leads. -/
theorem normalize_div_normalize {base : Path} (hb : base.isAbsolute = true) (path : Path) :
    (base / path.normalize).normalize = (base / path).normalize := by
  cases hp : path.isAbsolute with
  | true =>
    have hnormal : path.normalize.isAbsolute = true := hp
    rw [div_of_isAbsolute hp, div_of_isAbsolute hnormal, normalize_normalize]
  | false =>
    have hnormal : path.normalize.isAbsolute = false := hp
    have hlanding : landing (base.names ++ path.normalize.names) =
        landing (base.names ++ path.names) := by
      rw [landing_append, landing_append, names_normalize_of_relative hp, foldl_normalized]
    rw [normalize_of_isAbsolute (isAbsolute_div hb), normalize_of_isAbsolute (isAbsolute_div hb),
      div_of_relative hp, div_of_relative hnormal, hlanding]

/-- The normalized path of a request that is read from a directory. -/
def joined (directory request : String) : Path :=
  (ofString directory / ofString request).normalize

theorem written_joined (directory request : String) : (joined directory request).Written :=
  ((written_ofString directory).div (written_ofString request)).normalize

/-- The text of the joined path stays as it is unless the directory is written with a `./` at its
start and the text starts with neither a dot nor a slash. -/
theorem joinRequest_eq (directory request : String) :
    joinRequest directory request =
      if (Text.after? ['.', '/'] directory.toList).isSome = true ∧
          (joined directory request).toString.toList.head? ≠ some '.' ∧
          (joined directory request).toString.toList.head? ≠ some '/' then
        "./" ++ (joined directory request).toString
      else (joined directory request).toString := by
  fun_cases joinRequest directory request with
  | case1 text _ _ htext =>
    have hdot : (joined directory request).toString.toList.head? = some '.' := by
      change text.toList.head? = _
      rw [htext, List.head?_cons]
    exact (if_neg fun h => h.2.1 hdot).symm
  | case2 text _ _ htext =>
    have hslash : (joined directory request).toString.toList.head? = some '/' := by
      change text.toList.head? = _
      rw [htext, List.head?_cons]
    exact (if_neg fun h => h.2.2 hslash).symm
  | case3 text _ hafter hdot hslash =>
    refine (if_pos ⟨by rw [hafter]; rfl, fun h => ?_, fun h => ?_⟩).symm
    · obtain ⟨rest, hrest⟩ := List.head?_eq_some_iff.mp h
      exact hdot rest hrest
    · obtain ⟨rest, hrest⟩ := List.head?_eq_some_iff.mp h
      exact hslash rest hrest
  | case4 text hafter =>
    have hnone : (Text.after? ['.', '/'] directory.toList).isSome = false := by
      rw [hafter, Option.isSome_none]
    exact (if_neg fun h => by simp [hnone] at h).symm

theorem ofString_dot_append {text : String} (h : text.toList.head? ≠ some '/') :
    ofString ("./" ++ text) = ofString text := by
  have hjoin : joinTexts "." text = "./" ++ text := by
    rw [joinTexts, if_neg h, if_neg (by decide)]
    rfl
  have hrelative : (ofString text).isAbsolute = false :=
    Bool.eq_false_iff.mpr (mt isAbsolute_ofString_iff.mp h)
  have hanchor : (ofString text).anchor = .relative := by simpa [isAbsolute] using hrelative
  rw [← hjoin, ofString_joinTexts, div_of_relative hrelative]
  exact congrArg₂ Path.mk hanchor.symm rfl

theorem ofString_joinRequest (directory request : String) :
    ofString (joinRequest directory request) = joined directory request := by
  rw [joinRequest_eq]
  split
  · rename_i hrepaired
    rw [ofString_dot_append hrepaired.2.2]
    exact (written_joined directory request).ofString_toString
  · exact (written_joined directory request).ofString_toString

/-- Read from any absolute directory, a joined request denotes the place that the request denotes
when it is read from the directory it is joined onto. Joining has nothing left to normalize but the
`./` that it puts in front. -/
theorem joinRequest_denotes {base : String} (hb : (ofString base).isAbsolute = true)
    (directory request : String) :
    (ofString (joinTexts base (joinRequest directory request))).normalize.toString =
        (ofString (joinTexts (joinTexts base directory) request)).normalize.toString ∧
      (joinRequest directory request =
          (ofString (joinRequest directory request)).normalize.toString ∨
        joinRequest directory request =
          "./" ++ (ofString (joinRequest directory request)).normalize.toString) := by
  constructor
  · rw [ofString_joinTexts, ofString_joinTexts, ofString_joinTexts, ofString_joinRequest, joined,
      normalize_div_normalize hb, div_div]
  · have hagain : (ofString (joinRequest directory request)).normalize =
        joined directory request := by
      rw [ofString_joinRequest, joined, normalize_normalize]
    rw [hagain, joinRequest_eq]
    split
    · exact .inr rfl
    · exact .inl rfl

theorem joinRequest_denotes_above :
    (ofString "/p").isAbsolute = true ∧
    joinRequest "./src/a" "../../../b" = "../b" ∧
    (ofString (joinTexts "/p" (joinRequest "./src/a" "../../../b"))).normalize.toString =
        (ofString (joinTexts (joinTexts "/p" "./src/a") "../../../b")).normalize.toString ∧
    (joinRequest "./src/a" "../../../b" =
        (ofString (joinRequest "./src/a" "../../../b")).normalize.toString ∨
      joinRequest "./src/a" "../../../b" =
        "./" ++ (ofString (joinRequest "./src/a" "../../../b")).normalize.toString) := by
  have hbase : (ofString "/p").isAbsolute = true := by decide
  have hjoined : joinRequest "./src/a" "../../../b" = "../b" := by decide
  exact ⟨hbase, hjoined, joinRequest_denotes hbase "./src/a" "../../../b"⟩

end Path

end ImportAlias
