import ImportAlias.Proofs.Ending
import ImportAlias.Proofs.Reporting

/-!
# Chains of configurations

Where every file extends at most one other, the files that a load opens form a
chain, which stops at a file that extends none or in front of a place that it has
passed. The paths of the chain are those of the first file that sets some, as
they are written there, and the base URL is that of the first file that sets one,
read from the directory of this file.
-/

namespace ImportAlias

open Load (opened)

/-- The compiler options that a file sets, none if they are vacant. -/
def SetsOptions (entries options : Entries Value) : Prop :=
  Value.under entries "compilerOptions" = .object options ∨
    (Value.under entries "compilerOptions").isVacant = true ∧ options = []

/-- The one file that a file extends, if it extends one. -/
def ExtendsOnly (entries : Entries Value) : Option String → Prop
  | none => Value.under entries "extends" = .null ∨ Value.under entries "extends" = .array []
  | some entry => Value.under entries "extends" = .string entry ∨
      Value.under entries "extends" = .array [.string entry]

/-- A file that sets options, with a base URL that is null or a text, and extends at most one
other. -/
structure Configures (tree : FileTree) (file : Path) (options : Entries Value)
    (extended : Option String) : Prop where
  entries : ∃ entries, tree.readObject file = .ok entries ∧ SetsOptions entries options ∧
    ExtendsOnly entries extended
  baseUrl : Value.under options "baseUrl" = .null ∨
    ∃ text, Value.under options "baseUrl" = .string text

/-- The files of a chain, each with its options. It stops at a file that extends none, and in front
of a place that has been passed. -/
inductive Chain (tree : FileTree) : List Path → Path → List (Path × Entries Value) → Prop
  | closes {passed : List Path} {file : Path} (hp : file.resolve tree.current ∈ passed) :
    Chain tree passed file []
  | ends {passed : List Path} {file : Path} {options : Entries Value}
      (hn : file.resolve tree.current ∉ passed) (hf : Configures tree file options none) :
    Chain tree passed file [(file, options)]
  | links {passed : List Path} {file next : Path} {options : Entries Value} {entry : String}
      {files : List (Path × Entries Value)} (hn : file.resolve tree.current ∉ passed)
      (hf : Configures tree file options (some entry))
      (he : tree.extendedFile file entry = .ok next)
      (hs : Chain tree (passed ++ [file.resolve tree.current]) next files) :
    Chain tree passed file ((file, options) :: files)

namespace Chain

variable {tree : FileTree} {passed : List Path} {path file : Path} {options : Entries Value}
  {files : List (Path × Entries Value)}

/-- The paths that options set, unless they are null. -/
def ownPaths? (options : Entries Value) : Option Value :=
  match Value.under options "paths" with
  | .null => none
  | found => some found

/-- The base URL that a file sets, read from its directory. -/
def ownBaseUrl? (file : Path) (options : Entries Value) : Option Path :=
  match Value.under options "baseUrl" with
  | .string text => some (file.parent / Path.ofString text).normalize
  | _ => none

/-- The paths of the first file that sets some. -/
def paths? (files : List (Path × Entries Value)) : Option Value :=
  files.findSome? fun (_, options) => ownPaths? options

/-- The base URL of the first file that sets one. -/
def baseUrl? (files : List (Path × Entries Value)) : Option Path :=
  files.findSome? fun (file, options) => ownBaseUrl? file options

theorem ne_null_of_paths? {value : Value} (h : paths? files = some value) : value ≠ .null := by
  obtain ⟨⟨file, options⟩, -, hv⟩ := List.exists_of_findSome?_eq_some h
  dsimp only [ownPaths?] at hv
  split at hv
  · cases hv
  · rename_i hn
    rintro rfl
    exact hn (Option.some.inj hv)

/-- The paths and the base URL of a chain, each from the first file that has it. -/
def declaration (files : List (Path × Entries Value)) : Declaration :=
  ⟨(paths? files).getD .null, baseUrl? files⟩

theorem declaration_cons (file : Path) (options : Entries Value)
    (files : List (Path × Entries Value)) :
    declaration ((file, options) :: files) =
      (Declaration.mk (Value.under options "paths") (ownBaseUrl? file options)).overriding
        (declaration files) := by
  rw [declaration, declaration, Declaration.overriding, paths?, baseUrl?, List.findSome?_cons,
    List.findSome?_cons]
  congr 1
  · cases hv : Value.under options "paths" <;> simp [ownPaths?, hv, Value.isNull, paths?]
  · cases hb : ownBaseUrl? file options <;> simp [hb, baseUrl?]

theorem ofEntries_eq {extended : Option String} (h : Configures tree file options extended) :
    ∃ entries, tree.readObject file = .ok entries ∧ Declaration.ofEntries file entries =
      .ok (⟨Value.under options "paths", ownBaseUrl? file options⟩, extended.toList) := by
  obtain ⟨⟨entries, hr, ho, he⟩, hb⟩ := h
  have hbase : Declaration.baseUrlOf file options = .ok (ownBaseUrl? file options) := by
    rcases hb with hb | ⟨text, hb⟩ <;> simp [Declaration.baseUrlOf, ownBaseUrl?, hb]
  have hextended : Declaration.extendedBy file entries = .ok extended.toList := by
    cases extended with
    | none =>
      rcases he with he | he <;>
        simp [Declaration.extendedBy, he, Value.oneOrMoreTexts?, Value.oneOrMore?, OneOrMore.texts,
          Value.texts?]
    | some entry =>
      rcases he with he | he <;>
        simp [Declaration.extendedBy, he, Value.oneOrMoreTexts?, Value.oneOrMore?, OneOrMore.texts,
          Value.texts?]
  refine ⟨entries, hr, ?_⟩
  rw [Declaration.ofEntries, (Declaration.optionsOf_eq_ok_iff entries options).mpr ho]
  change ((Declaration.baseUrlOf file options).mapError _ >>= _) = _
  rw [hbase]
  change ((Declaration.extendedBy file entries).mapError _ >>= _) = _
  rw [hextended]
  rfl

theorem gives_file {depth : ℕ} {events : List Event} {extended : Option String}
    {inherited : Declaration} (hn : file.resolve tree.current ∉ opened events)
    (hf : Configures tree file options extended)
    (he : ∃ later, (extended.toList.foldlM (tree.followed depth file) Declaration.empty).Gives
      (events ++ [.opened (file.resolve tree.current)]) inherited later) :
    ∃ later, (tree.declared (depth + 1) file).Gives events
      ((Declaration.mk (Value.under options "paths") (ownBaseUrl? file options)).overriding
        inherited) later := by
  obtain ⟨entries, hr, ho⟩ := ofEntries_eq hf
  obtain ⟨later, hg⟩ := he
  refine ⟨later, ?_⟩
  rw [FileTree.declared]
  refine (FileTree.gives_locate (FileTree.fault?_of_readObject hr) events).bind ?_
  refine (Load.gives_openedFiles events).bind ?_
  rw [if_neg (by simpa using hn)]
  refine (Load.gives_note _ events).bind ?_
  rw [hr]
  refine (Load.gives_ok _ _).bind ?_
  rw [ho]
  exact (Load.gives_ok _ _).bind (hg.bind (Load.gives_pure _ _))

theorem sound_concat (hc : tree.current.anchor = .root) {extended : Option String}
    (hn : file.resolve tree.current ∉ passed) (hf : Configures tree file options extended)
    (hs : Agenda.Sound tree passed) :
    Agenda.Sound tree (passed ++ [file.resolve tree.current]) := by
  obtain ⟨entries, hr, ho⟩ := ofEntries_eq hf
  have hopens : Agenda.Advances tree ⟨passed, [.file file]⟩ _ :=
    .opens (FileTree.fault?_of_readObject hr) hn hr ho
  exact (hopens.sound hc hs).1

/-- A chain is loaded file by file, and each hides what the files behind it declare. -/
theorem gives_declared (hc : tree.current.anchor = .root) (h : Chain tree passed file files)
    {events : List Event} (hp : passed = opened events) (hs : Agenda.Sound tree passed) {depth : ℕ}
    (hd : files.length ≤ depth) :
    ∃ later, (tree.declared depth file).Gives events (declaration files) later := by
  induction h generalizing events depth with
  | @closes passed file hseen =>
    cases depth with
    | zero => exact ⟨events, Load.gives_pure _ _⟩
    | succ depth =>
      subst hp
      have hfile := Path.isRepresentable_of_resolve (hs.2 _ hseen).isRepresentable
      refine ⟨events ++ [.passedOver (file.resolve tree.current)], ?_⟩
      rw [FileTree.declared]
      refine (FileTree.gives_locate (Path.fault?_eq_none_iff.mpr hfile) events).bind ?_
      refine (Load.gives_openedFiles events).bind ?_
      rw [if_pos (by simpa using hseen)]
      exact (Load.gives_note _ events).bind (Load.gives_pure _ _)
  | ends hn hf =>
    obtain ⟨depth, rfl⟩ : ∃ d, depth = d + 1 := Nat.exists_eq_add_one.mpr hd
    subst hp
    rw [declaration_cons]
    exact gives_file hn hf ⟨_, Load.gives_pure _ _⟩
  | links hn hf he hnext ih =>
    obtain ⟨depth, rfl⟩ : ∃ d, depth = d + 1 := Nat.exists_eq_add_one.mpr (Nat.zero_lt_of_lt hd)
    subst hp
    rw [declaration_cons]
    apply gives_file hn hf
    obtain ⟨later, hg⟩ := ih (Load.opened_concat events _).symm (sound_concat hc hn hf hs)
      (Nat.le_of_succ_le_succ hd)
    refine ⟨later, ?_⟩
    rw [Option.toList_some, List.foldlM_cons, FileTree.followed, he]
    refine Load.Gives.bind ((Load.gives_ok _ _).bind (hg.bind (Load.gives_pure _ _))) ?_
    rw [Declaration.overriding_empty]
    exact Load.gives_pure _ _

theorem length_le_files (hc : tree.current.anchor = .root) (h : Chain tree passed file files)
    (hs : Agenda.Sound tree passed) : passed.length + files.length ≤ tree.files.length := by
  induction h with
  | closes => exact FileTree.length_le_files hs.1 hs.2
  | ends hn hf =>
    have hs' := sound_concat hc hn hf hs
    simpa using FileTree.length_le_files hs'.1 hs'.2
  | links hn hf he hnext ih =>
    have hle := ih (sound_concat hc hn hf hs)
    rw [List.length_append, List.length_singleton] at hle
    rw [List.length_cons]
    omega

end Chain

/-- The targets of an alias are written as one text or as a list of texts. -/
def WritesTargets (value : Value) (targets : List String) : Prop :=
  (∃ text, value = .string text ∧ targets = [text]) ∨ value = .array (targets.map .string)

/-- Paths are written as an object of aliases with targets, in order. -/
def WritesPaths (value : Value) (paths : Entries (List String)) : Prop :=
  ∃ members, value = .object members ∧ List.Forall₂ (fun member path =>
    member.1 = path.1 ∧ WritesTargets member.2 path.2) members paths

namespace Settings

theorem oneOrMoreTexts?_eq_some_iff (value : Value) (targets : List String) :
    value.oneOrMoreTexts? = some targets ↔ WritesTargets value targets := by
  cases value with
  | string text =>
    simp [Value.oneOrMoreTexts?, Value.oneOrMore?, OneOrMore.texts, WritesTargets, eq_comm]
  | array items =>
    simp [Value.oneOrMoreTexts?, Value.oneOrMore?, OneOrMore.texts, WritesTargets,
      Value.texts?_eq_some_iff]
  | _ => simp [Value.oneOrMoreTexts?, Value.oneOrMore?, WritesTargets]

theorem collect_eq_ok_iff (file : Path) (members : List (String × Value))
    (paths : Entries (List String)) :
    pathsOf.collect file members = .ok paths ↔ List.Forall₂ (fun member path =>
      member.1 = path.1 ∧ WritesTargets member.2 path.2) members paths := by
  induction members generalizing paths with
  | nil => cases paths <;> simp [pathsOf.collect]
  | cons member members ih =>
    obtain ⟨key, value⟩ := member
    rw [pathsOf.collect, List.forall₂_cons_left_iff]
    cases ht : value.oneOrMoreTexts? with
    | none =>
      have hno : ∀ targets, ¬ WritesTargets value targets := by
        intro targets
        rw [← oneOrMoreTexts?_eq_some_iff, ht]
        simp
      simp [hno]
    | some texts =>
      have hone : ∀ targets, WritesTargets value targets ↔ targets = texts := by
        intro targets
        rw [← oneOrMoreTexts?_eq_some_iff, ht, Option.some.injEq, eq_comm]
      simp only [bind_eq_ok_iff, ih, hone, pure, Except.pure, Except.ok.injEq]
      constructor
      · rintro ⟨others, hothers, rfl⟩
        exact ⟨(key, texts), others, ⟨rfl, rfl⟩, hothers, rfl⟩
      · rintro ⟨⟨key, targets⟩, others, ⟨rfl, rfl⟩, hothers, rfl⟩
        exact ⟨others, hothers, rfl⟩

theorem pathsOf_eq_ok_iff (file : Path) (value : Value) (paths : Entries (List String)) :
    pathsOf file value = .ok paths ↔ value = .null ∧ paths = [] ∨ WritesPaths value paths := by
  cases value with
  | null => simp [pathsOf, WritesPaths, eq_comm]
  | object members => simp [pathsOf, WritesPaths, collect_eq_ok_iff]
  | _ => simp [pathsOf, WritesPaths]

end Settings

namespace FileTree

variable {tree : FileTree} {path : Path} {files : List (Path × Entries Value)}

/-- The first file of a chain that sets paths gives all of them, and the first that sets a base URL
gives that, read from its own directory. The load fails only if those paths are no object of texts
and lists of texts; what the other files write as paths does not count. -/
theorem loadJson_chain (hc : tree.current.anchor = .root)
    (h : Chain tree [] (path.resolve tree.current) files) :
    (∀ settings, (tree.loadJson path).result = .ok settings ↔
      settings.file = (path.resolve tree.current).toString ∧
      settings.baseUrl =
        ((Chain.baseUrl? files).map fun base => Value.string base.toString).getD .null ∧
      match Chain.paths? files with
      | none => settings.paths = []
      | some value => WritesPaths value settings.paths) ∧
    ((∃ cause, (tree.loadJson path).result = .error (.config cause)) ↔
      ∃ value, Chain.paths? files = some value ∧ ∀ paths, ¬ WritesPaths value paths) := by
  have hd := Chain.length_le_files hc h Agenda.sound_nil
  rw [List.length_nil, Nat.zero_add] at hd
  have hnone : [] = opened [] := rfl
  obtain ⟨later, hg⟩ := Chain.gives_declared hc h hnone Agenda.sound_nil (Nat.le_succ_of_le hd)
  have hpaths : ∀ paths, Settings.pathsOf (path.resolve tree.current)
      ((Chain.paths? files).getD .null) = .ok paths ↔
        match Chain.paths? files with
        | none => paths = []
        | some value => WritesPaths value paths := by
    intro paths
    rw [Settings.pathsOf_eq_ok_iff]
    cases hv : Chain.paths? files with
    | none => simp [WritesPaths]
    | some value => simp [Chain.ne_null_of_paths? hv]
  rw [Load.result, start_loadJson hg, Chain.declaration]
  dsimp only
  cases hp : Settings.pathsOf (path.resolve tree.current) ((Chain.paths? files).getD .null) with
  | error cause =>
    simp only [hp, reduceCtorEq, false_iff] at hpaths ⊢
    refine ⟨fun settings hs => hpaths settings.paths hs.2.2, fun _ => ?_, fun _ => ⟨cause, rfl⟩⟩
    cases hv : Chain.paths? files with
    | none =>
      simp only [hv] at hpaths
      exact absurd rfl (hpaths [])
    | some value =>
      simp only [hv] at hpaths
      exact ⟨value, rfl, hpaths⟩
  | ok paths =>
    simp only [hp, Except.ok.injEq] at hpaths ⊢
    constructor
    · rintro ⟨file, baseUrl, others⟩
      rw [← hpaths others, Settings.mk.injEq, eq_comm (a := file), eq_comm (a := baseUrl)]
    · constructor
      · rintro ⟨cause, h⟩
        cases h
      · rintro ⟨value, hv, hno⟩
        have hwrites := (hpaths paths).mp rfl
        rw [hv] at hwrites
        exact absurd hwrites (hno paths)

end FileTree

namespace Circle

def base : Path := ⟨.root, ["p", "lib", "base.json"]⟩

def bottomOptions : Entries Value :=
  [("baseUrl", .string "src"), ("paths", .null)]

def baseOptions : Entries Value :=
  [("baseUrl", .string "."), ("paths", .object [("a", .string "x")])]

set_option maxRecDepth 4000 in
theorem configures_bottom : Configures tree bottom bottomOptions (some "./lib/base") := by
  have hr : tree.readObject bottom =
      .ok [("extends", .string "./lib/base"), ("compilerOptions", .object bottomOptions)] :=
    FileTree.readObject_eq_ok_iff.mpr
      ⟨bottomText.toUTF8.toList, rfl, bottomText.toList, by cbv, by cbv⟩
  exact ⟨⟨_, hr, .inl rfl, .inl rfl⟩, .inr ⟨"src", rfl⟩⟩

set_option maxRecDepth 4000 in
theorem configures_base : Configures tree base baseOptions (some "../tsconfig.json") := by
  have hr : tree.readObject base = .ok [("extends", .array [.string "../tsconfig.json"]),
      ("compilerOptions", .object baseOptions)] :=
    FileTree.readObject_eq_ok_iff.mpr ⟨baseText.toUTF8.toList, rfl, baseText.toList, by cbv, by cbv⟩
  exact ⟨⟨_, hr, .inl rfl, .inr rfl⟩, .inr ⟨".", rfl⟩⟩

theorem chain :
    Chain tree [] (bottom.resolve tree.current) [(bottom, bottomOptions), (base, baseOptions)] := by
  refine .links (by decide) configures_bottom rfl ?_
  refine .links (by decide) configures_base rfl ?_
  exact .closes (by decide)

theorem loadJson_chain_circle :
    tree.current.anchor = .root ∧
    Chain tree [] (bottom.resolve tree.current) [(bottom, bottomOptions), (base, baseOptions)] ∧
    (tree.loadJson bottom).result =
      .ok ⟨"/p/tsconfig.json", .string "/p/src", [("a", ["x"])]⟩ := by
  obtain ⟨hok, -⟩ := FileTree.loadJson_chain rfl chain
  refine ⟨rfl, chain, (hok _).mpr ⟨by decide, by rfl, ?_⟩⟩
  exact ⟨_, rfl, .cons ⟨rfl, .inl ⟨"x", rfl, rfl⟩⟩ .nil⟩

end Circle

end ImportAlias
