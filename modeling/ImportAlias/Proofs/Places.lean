import ImportAlias.FileTree

/-!
# Places of files

A file that can be read is at the place that its path resolves to: following a
path through a tree without links and resolving it by its text lead to the same
names, whenever following it leads anywhere.
-/

namespace ImportAlias

namespace Path

/-- Read from the root, a `..` leaves the last name, and at the root it changes nothing. -/
theorem walk_reverse (here : List String) (hh : ".." ∉ here) (name : String) :
    walk true here.reverse name =
      (if name = ".." then here.dropLast else here ++ [name]).reverse := by
  by_cases hn : name = ".."
  · subst hn
    rcases List.eq_nil_or_concat here with rfl | ⟨rest, last, rfl⟩
    · rfl
    · have hl : last ≠ ".." := by
        rintro rfl
        simp at hh
      simp [walk, hl]
  · simp [walk, hn]

theorem isAbsolute_div {p q : Path} (hp : p.isAbsolute = true) : (p / q).isAbsolute = true := by
  change (join p q).isAbsolute = true
  unfold join
  split
  · assumption
  · exact hp

theorem head?_toString {p : Path} (hp : p.isAbsolute = true) :
    p.toString.toList.head? = some '/' := by
  obtain ⟨anchor, names⟩ := p
  cases anchor with
  | relative => simp [isAbsolute] at hp
  | root => simp [toString, Anchor.toString]
  | doubleRoot => simp [toString, Anchor.toString]

theorem resolve_anchor {current : Path} (hc : current.anchor = .root) (path : Path) :
    (path.resolve current).anchor = .root := by
  have hanchor : (current / ⟨path.anchor.single, path.names⟩ : Path).anchor = .root := by
    obtain ⟨anchor, names⟩ := path
    cases anchor with
    | relative => exact hc
    | root => rfl
    | doubleRoot => rfl
  unfold resolve
  split <;> exact hanchor

theorem resolve_names {current : Path} (hc : current.isAbsolute = true) {path : Path}
    (hp : path.isRepresentable = true) :
    (path.resolve current).names =
      ((current / path).names.foldl (walk true) []).reverse := by
  rw [resolve, if_pos hp]
  obtain ⟨anchor, names⟩ := path
  cases anchor with
  | relative =>
    change (((current.names ++ names).foldl (walk current.isAbsolute) []).reverse) = _
    rw [hc]
    rfl
  | root => rfl
  | doubleRoot => rfl

theorem isRepresentable_of_div {p q : Path} (h : (p / q).isRepresentable = true) :
    q.isRepresentable = true := by
  change (join p q).isRepresentable = true at h
  unfold join at h
  split at h
  · exact h
  · exact (Bool.and_eq_true_iff.mp ((List.all_append ..).symm.trans h)).2

theorem isRepresentable_of_resolve {current path : Path}
    (h : (path.resolve current).isRepresentable = true) : path.isRepresentable = true := by
  dsimp only [resolve] at h
  split at h
  · assumption
  · have hnames := isRepresentable_of_div h
    exact hnames

end Path

namespace FileTree

variable {tree : FileTree}

theorem follow_eq {names here place : List String} (hh : ".." ∉ here)
    (h : tree.follow here names = .ok place) :
    place = (names.foldl (Path.walk true) here.reverse).reverse := by
  induction names generalizing here with
  | nil =>
    rw [follow] at h
    simpa using (Except.ok.inj h).symm
  | cons name names ih =>
    rw [follow] at h
    split at h
    · simp at h
    · simp at h
    · have hn : ".." ∉ (if name = ".." then here.dropLast else here ++ [name]) := by
        split
        · exact fun hm => hh (List.dropLast_subset here hm)
        · rename_i hn
          simpa [hh] using Ne.symm hn
      rw [ih hn h, List.foldl_cons, Path.walk_reverse here hh]

theorem all_isRepresentable_of_node? {place : List String} {node : Node}
    (h : tree.node? place = some node) : place.all Text.isRepresentable = true := by
  unfold node? at h
  split at h
  · assumption
  · cases h

/-- What leads to something goes through names that files have. -/
theorem all_isRepresentable_of_follow {names here place : List String} {node : Node}
    (hf : tree.follow here names = .ok place) (hn : tree.node? place = some node) :
    here.all Text.isRepresentable = true ∧ names.all Text.isRepresentable = true := by
  induction names generalizing here with
  | nil =>
    obtain rfl : here = place := by simpa [follow] using hf
    exact ⟨all_isRepresentable_of_node? hn, rfl⟩
  | cons name names ih =>
    rw [follow] at hf
    split at hf
    · cases hf
    · cases hf
    · rename_i hdirectory
      obtain ⟨hhere, hnames⟩ := ih hf
      refine ⟨all_isRepresentable_of_node? hdirectory, ?_⟩
      rw [List.all_cons, hnames, Bool.and_true]
      split at hhere
      · rename_i hdots
        subst hdots
        decide
      · simpa using (Bool.and_eq_true_iff.mp ((List.all_append ..).symm.trans hhere)).2

theorem lookup_eq_ok_iff_exists {path : Path} {node : Node} :
    tree.lookup path = .ok node ↔
      ∃ place, tree.follow [] (tree.current / path).names = .ok place ∧
        tree.node? place = some node := by
  cases hf : tree.follow [] (tree.current / path).names with
  | error cause => simp [lookup, hf, bind, Except.bind]
  | ok place =>
    cases hn : tree.node? place <;> simp [lookup, hf, hn, bind, Except.bind, pure, Except.pure]

theorem read_eq_ok_iff {path : Path} {bytes : List UInt8} :
    tree.read path = .ok bytes ↔ tree.lookup path = .ok (.file bytes) := by
  cases hl : tree.lookup path with
  | error cause => simp [read, hl, bind, Except.bind]
  | ok node => cases node <;> simp [read, hl, bind, Except.bind, pure, Except.pure]

theorem isRepresentable_of_lookup {path : Path} {node : Node}
    (h : tree.lookup path = .ok node) : path.isRepresentable = true := by
  obtain ⟨place, hf, hn⟩ := lookup_eq_ok_iff_exists.mp h
  exact Path.isRepresentable_of_div (all_isRepresentable_of_follow hf hn).2

theorem isRepresentable_of_isFile {path : Path} (h : tree.isFile path = true) :
    path.isRepresentable = true := by
  unfold isFile at h
  split at h
  · rename_i hl
    exact isRepresentable_of_lookup hl
  · cases h

theorem isRepresentable_of_read {path : Path} {bytes : List UInt8}
    (h : tree.read path = .ok bytes) : path.isRepresentable = true :=
  isRepresentable_of_lookup (read_eq_ok_iff.mp h)

/-- What a path leads to stands at the place that the path resolves to. -/
theorem node?_resolve_of_lookup (hc : tree.current.isAbsolute = true) {path : Path} {node : Node}
    (h : tree.lookup path = .ok node) :
    tree.node? (path.resolve tree.current).names = some node := by
  obtain ⟨place, hf, hn⟩ := lookup_eq_ok_iff_exists.mp h
  rwa [Path.resolve_names hc (isRepresentable_of_lookup h), ← List.reverse_nil,
    ← follow_eq List.not_mem_nil hf]

theorem mem_files_of_node? {place : List String} {content : List UInt8}
    (h : tree.node? place = some (.file content)) : (place, content) ∈ tree.files := by
  rw [node?, if_pos (all_isRepresentable_of_node? h)] at h
  split at h
  · rename_i name found hf
    have hp : name = place := by simpa using List.find?_some hf
    obtain rfl : found = content := by simpa using h
    rw [← hp]
    exact List.mem_of_find?_eq_some hf
  · split at h <;> simp at h

end FileTree

end ImportAlias
