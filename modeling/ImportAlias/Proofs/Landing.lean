import ImportAlias.Proofs.Places
import Mathlib.Data.List.Basic
import Mathlib.Data.List.Induction

/-!
# Where paths land

The names of an absolute path lead from the root to the place that is left when
every `..` is resolved. What stands at the end of a path that leads somewhere is
found from that place just as well, and every place above it is passed on the way.
-/

namespace ImportAlias

namespace Path

/-- The place below the root that names lead to. -/
def landing (names : List String) : List String :=
  (names.foldl (walk true) []).reverse

theorem landing_append (names others : List String) :
    landing (names ++ others) = (others.foldl (walk true) (landing names).reverse).reverse := by
  rw [landing, landing, List.foldl_append, List.reverse_reverse]

theorem dots_not_mem_landing (names : List String) : ".." ∉ landing names := by
  induction names using List.reverseRecOn with
  | nil => exact List.not_mem_nil
  | append_singleton names name ih =>
    rw [landing_append, List.foldl_cons, List.foldl_nil, walk_reverse _ ih, List.reverse_reverse]
    split
    · exact fun h => ih (List.dropLast_subset _ h)
    · rename_i hn
      simpa [ih] using Ne.symm hn

theorem landing_concat (names : List String) (name : String) :
    landing (names ++ [name]) =
      if name = ".." then (landing names).dropLast else landing names ++ [name] := by
  rw [landing_append, List.foldl_cons, List.foldl_nil, walk_reverse _ (dots_not_mem_landing names),
    List.reverse_reverse]

theorem landing_eq_self {names : List String} (h : ".." ∉ names) : landing names = names := by
  induction names using List.reverseRecOn with
  | nil => rfl
  | append_singleton names name ih =>
    obtain ⟨hnames, hname⟩ : ".." ∉ names ∧ name ≠ ".." := by simpa [eq_comm] using h
    rw [landing_concat, if_neg hname, ih hnames]

@[simp] theorem landing_landing (names : List String) : landing (landing names) = landing names :=
  landing_eq_self (dots_not_mem_landing names)

theorem landing_landing_append (names others : List String) :
    landing (landing names ++ others) = landing (names ++ others) := by
  rw [landing_append, landing_landing, landing_append]

/-- A path that ends deeper than it has been passes every place in between that lies above its
end. -/
theorem exists_landing_between {names others place : List String}
    (hp : place <+: landing (names ++ others)) (hl : (landing names).length < place.length) :
    ∃ passed, names ++ passed <+: names ++ others ∧ passed ≠ [] ∧
      landing (names ++ passed) = place := by
  induction others using List.reverseRecOn with
  | nil =>
    rw [List.append_nil] at hp
    exact absurd hp.length_le (Nat.not_le_of_lt hl)
  | append_singleton others name ih =>
    by_cases he : landing (names ++ (others ++ [name])) = place
    · refine ⟨others ++ [name], List.prefix_rfl, by simp, he⟩
    · have hbefore : place <+: landing (names ++ others) := by
        rw [← List.append_assoc, landing_concat] at hp he
        split at hp
        · exact hp.trans (List.dropLast_prefix _)
        · rename_i hn
          rw [if_neg hn] at he
          exact (List.prefix_concat_iff.mp hp).resolve_left fun h => he h.symm
      obtain ⟨passed, hpre, hne, hland⟩ := ih hbefore
      refine ⟨passed, hpre.trans ?_, hne, hland⟩
      rw [← List.append_assoc]
      exact List.prefix_append _ _

theorem exists_landing_eq {names place : List String} (hp : place <+: landing names) :
    ∃ passed, passed <+: names ∧ landing passed = place := by
  cases place with
  | nil => exact ⟨[], List.nil_prefix, rfl⟩
  | cons name place =>
    have hpassed : name :: place <+: landing ([] ++ names) := hp
    obtain ⟨passed, hpre, -, hland⟩ := exists_landing_between hpassed (Nat.succ_pos _)
    exact ⟨passed, hpre, hland⟩

theorem div_of_relative {path other : Path} (h : other.isAbsolute = false) :
    path / other = ⟨path.anchor, path.names ++ other.names⟩ := by
  change join path other = _
  simp [join, h]

theorem div_of_isAbsolute {path other : Path} (h : other.isAbsolute = true) :
    path / other = other := by
  change join path other = _
  simp [join, h]

theorem div_div (path other last : Path) : path / other / last = path / (other / last) := by
  cases hl : last.isAbsolute with
  | true => rw [div_of_isAbsolute hl, div_of_isAbsolute hl, div_of_isAbsolute hl]
  | false =>
    cases ho : other.isAbsolute with
    | true =>
      rw [div_of_isAbsolute ho, div_of_isAbsolute (isAbsolute_div ho)]
    | false =>
      have hol : (other / last).isAbsolute = false := by
        rw [div_of_relative hl]
        exact ho
      rw [div_of_relative hol, div_of_relative hl, div_of_relative hl,
        div_of_relative ho, List.append_assoc]

theorem name?_div (path : Path) {other : Path} (hn : other.names ≠ []) :
    (path / other).name? = other.name? := by
  cases ho : other.isAbsolute with
  | true => rw [div_of_isAbsolute ho]
  | false =>
    rw [div_of_relative ho]
    exact List.getLast?_append_of_ne_nil _ hn

theorem extension_div (path : Path) {other : Path} (hn : other.names ≠ []) :
    (path / other).extension = other.extension := by
  rw [extension, extension, name?_div path hn]

theorem isAbsolute_of_root {path : Path} (h : path.anchor = .root) : path.isAbsolute = true := by
  simp [isAbsolute, h]

theorem isRepresentable_div_iff {path other : Path} (h : other.isAbsolute = false) :
    (path / other).isRepresentable = true ↔
      path.isRepresentable = true ∧ other.isRepresentable = true := by
  rw [div_of_relative h, isRepresentable, List.all_append, Bool.and_eq_true]
  rfl

theorem all_isRepresentable_landing {names : List String}
    (h : names.all Text.isRepresentable = true) :
    (landing names).all Text.isRepresentable = true := by
  induction names using List.reverseRecOn with
  | nil => rfl
  | append_singleton names name ih =>
    rw [List.all_append, Bool.and_eq_true] at h
    rw [landing_concat]
    split
    · exact List.all_eq_true.mpr fun other ho =>
        List.all_eq_true.mp (ih h.1) other (List.dropLast_subset _ ho)
    · rw [List.all_append, ih h.1, h.2]
      rfl

theorem resolve_eq {current path : Path} (hc : current.anchor = .root)
    (hp : path.isAbsolute = true) (hr : path.isRepresentable = true) :
    path.resolve current = ⟨.root, landing path.names⟩ := by
  have hnames := resolve_names (isAbsolute_of_root hc) hr
  rw [div_of_isAbsolute hp] at hnames
  have hanchor := resolve_anchor hc path
  generalize path.resolve current = place at hnames hanchor
  cases place
  simp_all [landing]

theorem isRepresentable_resolve {current path : Path} (hc : current.anchor = .root)
    (h : current.isRepresentable = true) (hp : path.isRepresentable = true) :
    (path.resolve current).isRepresentable = true := by
  rw [isRepresentable, resolve_names (isAbsolute_of_root hc) hp]
  apply all_isRepresentable_landing
  cases ha : path.isAbsolute with
  | true => rwa [div_of_isAbsolute ha]
  | false => exact (isRepresentable_div_iff ha).mpr ⟨h, hp⟩

end Path

open ImportAlias.Path (landing)

namespace FileTree

variable {tree : FileTree} {names others : List String}

theorem follow_append (here names others : List String) :
    tree.follow here (names ++ others) =
      tree.follow here names >>= fun place => tree.follow place others := by
  induction names generalizing here with
  | nil => rfl
  | cons name names ih =>
    rw [List.cons_append, follow, follow]
    split
    · rfl
    · rfl
    · exact ih _

/-- Names that lead somewhere. -/
def Leads (tree : FileTree) (names : List String) : Prop :=
  tree.follow [] names = .ok (landing names)

theorem leads_of_follow {place : List String} (h : tree.follow [] names = .ok place) :
    tree.Leads names := by
  rw [Leads, h, follow_eq List.not_mem_nil h]
  rfl

theorem Leads.follow_append (h : tree.Leads names) (others : List String) :
    tree.follow [] (names ++ others) = tree.follow (landing names) others := by
  rw [FileTree.follow_append, h]
  rfl

theorem Leads.of_append (h : tree.Leads (names ++ others)) : tree.Leads names := by
  rw [Leads, FileTree.follow_append] at h
  cases hf : tree.follow [] names with
  | error cause => simp [hf, bind, Except.bind] at h
  | ok place => exact leads_of_follow hf

theorem Leads.of_prefix (h : tree.Leads names) (hp : others <+: names) : tree.Leads others := by
  obtain ⟨rest, rfl⟩ := hp
  exact h.of_append

theorem Leads.directory {name : String} (h : tree.Leads (names ++ [name])) :
    tree.node? (landing names) = some .directory := by
  have hname := h.of_append.follow_append [name]
  rw [h, follow] at hname
  split at hname
  · cases hname
  · cases hname
  · assumption

theorem leads_concat_iff {name : String} :
    tree.Leads (names ++ [name]) ↔
      tree.Leads names ∧ tree.node? (Path.landing names) = some .directory := by
  constructor
  · intro h
    exact ⟨h.of_append, h.directory⟩
  · rintro ⟨hl, hd⟩
    have hfollow := hl.follow_append [name]
    rw [follow, hd] at hfollow
    exact leads_of_follow hfollow

theorem Leads.landing (h : tree.Leads names) : tree.Leads (landing names) := by
  induction names using List.reverseRecOn with
  | nil => exact h
  | append_singleton names name ih =>
    have hplace := ih h.of_append
    rw [Path.landing_concat]
    split
    · exact hplace.of_prefix (List.dropLast_prefix _)
    · apply leads_concat_iff.mpr
      rw [Path.landing_landing]
      exact ⟨hplace, h.directory⟩

theorem Leads.parent_directory (h : tree.Leads names)
    (hn : tree.node? (Path.landing names) = some .directory) :
    tree.node? (Path.landing names).dropLast = some .directory := by
  have hl := h.landing
  have hdots := Path.dots_not_mem_landing names
  rcases List.eq_nil_or_concat (Path.landing names) with hnil | ⟨above, name, hconcat⟩
  · rw [hnil] at hn ⊢
    exact hn
  · rw [hconcat, List.concat_eq_append] at hl hdots ⊢
    have habove : ".." ∉ above := fun hm => hdots (List.mem_append_left _ hm)
    rw [List.dropLast_concat, ← Path.landing_eq_self habove]
    exact hl.directory

variable {path other file : Path}

/-- Two absolute paths that lead to the same place. -/
structure Meet (tree : FileTree) (path other : Path) : Prop where
  isAbsolute : path.isAbsolute = true ∧ other.isAbsolute = true
  leads : tree.Leads path.names ∧ tree.Leads other.names
  landing_eq : landing path.names = landing other.names

theorem Meet.symm (h : tree.Meet path other) : tree.Meet other path :=
  ⟨h.isAbsolute.symm, h.leads.symm, h.landing_eq.symm⟩

theorem meet_resolve (hc : tree.current.anchor = .root) (hp : path.isAbsolute = true)
    (hr : path.isRepresentable = true) (hl : tree.Leads path.names) :
    tree.Meet path (path.resolve tree.current) := by
  rw [Path.resolve_eq hc hp hr]
  exact ⟨⟨hp, rfl⟩, ⟨hl, hl.landing⟩, (Path.landing_landing path.names).symm⟩

/-- What is found from a place does not depend on the path that leads there. -/
theorem Meet.lookup_div (h : tree.Meet path other) {inner : Path}
    (hi : inner.isAbsolute = false) : tree.lookup (path / inner) = tree.lookup (other / inner) := by
  rw [lookup, lookup, Path.div_of_isAbsolute (Path.isAbsolute_div h.isAbsolute.1),
    Path.div_of_isAbsolute (Path.isAbsolute_div h.isAbsolute.2), Path.div_of_relative hi,
    Path.div_of_relative hi, h.leads.1.follow_append, h.leads.2.follow_append, h.landing_eq]

theorem Meet.isFile_div (h : tree.Meet path other) {inner : Path}
    (hi : inner.isAbsolute = false) : tree.isFile (path / inner) = tree.isFile (other / inner) := by
  rw [isFile, isFile, h.lookup_div hi]

theorem Meet.isDirectory_div (h : tree.Meet path other) {inner : Path}
    (hi : inner.isAbsolute = false) :
    tree.isDirectory (path / inner) = tree.isDirectory (other / inner) := by
  rw [isDirectory, isDirectory, h.lookup_div hi]

theorem Meet.resolve_div (hc : tree.current.anchor = .root) (h : tree.Meet path other)
    {inner : Path} (hi : inner.isAbsolute = false) (hp : (path / inner).isRepresentable = true)
    (ho : (other / inner).isRepresentable = true) :
    (path / inner).resolve tree.current = (other / inner).resolve tree.current := by
  rw [Path.resolve_eq hc (Path.isAbsolute_div h.isAbsolute.1) hp,
    Path.resolve_eq hc (Path.isAbsolute_div h.isAbsolute.2) ho, Path.div_of_relative hi,
    Path.div_of_relative hi, ← Path.landing_landing_append, h.landing_eq,
    Path.landing_landing_append]

/-- An absolute path finds what stands at its place, if every name on the way is in a directory. -/
theorem lookup_eq_ok_iff {node : Node} (hp : path.isAbsolute = true) :
    tree.lookup path = .ok node ↔
      tree.Leads path.names ∧ tree.node? (landing path.names) = some node := by
  rw [lookup, Path.div_of_isAbsolute hp]
  cases hf : tree.follow [] path.names with
  | error cause =>
    constructor
    · intro h
      cases h
    · rintro ⟨hl, -⟩
      rw [Leads, hf] at hl
      cases hl
  | ok place =>
    have hl := leads_of_follow hf
    obtain rfl : place = landing path.names := Except.ok.inj (hf.symm.trans hl)
    simp only [hl, true_and, bind, Except.bind]
    cases tree.node? (landing path.names) with
    | none => simp
    | some found => simp [pure, Except.pure]

theorem isFile_iff :
    tree.isFile path = true ↔ ∃ content, tree.lookup path = .ok (.file content) := by
  unfold isFile
  split
  · rename_i content hl
    exact iff_of_true rfl ⟨content, hl⟩
  · rename_i hother
    apply iff_of_false nofun
    rintro ⟨content, hl⟩
    exact hother content hl

theorem isDirectory_iff : tree.isDirectory path = true ↔ tree.lookup path = .ok .directory := by
  unfold isDirectory
  split
  · rename_i hl
    exact iff_of_true rfl hl
  · rename_i hother
    exact iff_of_false nofun hother

theorem exists_file_of_read (hp : file.isAbsolute = true) {bytes : List UInt8}
    (h : tree.read file = .ok bytes) :
    tree.Leads file.names ∧ ∃ content, tree.node? (landing file.names) = some (.file content) := by
  cases hl : tree.lookup file with
  | error cause => simp [read, hl, bind, Except.bind] at h
  | ok node =>
    cases node with
    | directory => simp [read, hl, bind, Except.bind] at h
    | file content =>
      obtain ⟨hleads, hnode⟩ := (lookup_eq_ok_iff hp).mp hl
      exact ⟨hleads, content, hnode⟩

theorem landing_parent (hp : file.isAbsolute = true) {bytes : List UInt8}
    (h : tree.read file = .ok bytes) :
    landing file.parent.names = (landing file.names).dropLast := by
  obtain ⟨hl, content, hn⟩ := exists_file_of_read hp h
  rw [Path.parent]
  rcases List.eq_nil_or_concat file.names with hnil | ⟨names, name, hnames⟩
  · rw [hnil]
    rfl
  rw [List.concat_eq_append] at hnames
  rw [hnames] at hl hn ⊢
  rw [List.dropLast_concat, Path.landing_concat]
  split
  · -- a path that ends in dots leads to a directory
    rename_i hdots
    rw [Path.landing_concat, if_pos hdots, hl.of_append.parent_directory hl.directory] at hn
    cases hn
  · rw [List.dropLast_concat]

end FileTree

end ImportAlias
