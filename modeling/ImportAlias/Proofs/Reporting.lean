import ImportAlias.Proofs.Agenda
import ImportAlias.Proofs.Printing
import Mathlib

/-!
# What nothing reports

An error of a configuration is to be reported, whatever stands in its files. A
few contents get past every check and end the program instead: bytes that are not
UTF-8, an integer with too many digits, compiler options or a base URL of another
kind, and an entry that extends a path without a name or one that no file has. So
does a context that is no path. A load ends in such an error exactly if it starts
from one or its agenda comes to one, and a command does as well if what it lists
has no form in bytes.
-/

namespace ImportAlias

variable {α β : Type}

/-- The result is an error that nothing reports. -/
def Escapes (result : Except Error α) : Prop :=
  ∃ e, result = .error e ∧ e.isReported = false

theorem not_escapes_ok (a : α) : ¬ Escapes (.ok a : Except Error α) := by
  rintro ⟨e, h, -⟩
  cases h

theorem escapes_mapError_iff {ε : Type} (result : Except ε α) (change : ε → Error) :
    Escapes (result.mapError change) ↔ ∃ e, result = .error e ∧ (change e).isReported = false := by
  cases result <;> simp [Escapes, Except.mapError]

theorem escapes_bind_iff (result : Except Error α) (next : α → Except Error β) :
    Escapes (result >>= next) ↔ Escapes result ∨ ∃ a, result = .ok a ∧ Escapes (next a) := by
  cases result <;> simp [Escapes, bind, Except.bind]

theorem mapError_eq_ok_iff {ε ε' : Type} (result : Except ε α) (change : ε → ε') (a : α) :
    result.mapError change = .ok a ↔ result = .ok a := by
  cases result <;> simp [Except.mapError]

theorem bind_eq_ok_iff {ε : Type} (result : Except ε α) (next : α → Except ε β) (b : β) :
    (result >>= next) = .ok b ↔ ∃ a, result = .ok a ∧ next a = .ok b := by
  cases result <;> simp [bind, Except.bind]

/-- A load that ends in an error that nothing reports. -/
def Load.Escapes (load : Load α) (events : List Event) : Prop :=
  ∃ e, load.Stops events e ∧ e.isReported = false

namespace Load

variable {load : Load α} {events : List Event}

theorem escapes_result : ImportAlias.Escapes load.result ↔ load.Escapes [] := by
  unfold ImportAlias.Escapes Load.Escapes Stops result start
  rcases (load.run []).run with ⟨e | a, later⟩ <;> simp

theorem exists_gives_iff {a : α} : (∃ later, load.Gives [] a later) ↔ load.result = .ok a := by
  unfold Gives result start
  rcases (load.run []).run with ⟨e | b, later⟩ <;> simp

theorem escapes_bind_iff {next : α → Load β} :
    (load >>= next).Escapes events ↔
      load.Escapes events ∨ ∃ a later, load.Gives events a later ∧ (next a).Escapes later := by
  constructor
  · rintro ⟨e, h, he⟩
    rcases stops_bind_iff.mp h with h | ⟨a, later, hg, h⟩
    · exact .inl ⟨e, h, he⟩
    · exact .inr ⟨a, later, hg, e, h, he⟩
  · rintro (⟨e, h, he⟩ | ⟨a, later, hg, e, h, he⟩)
    · exact ⟨e, h.bind next, he⟩
    · exact ⟨e, hg.bind_stops h, he⟩

theorem escapes_bind_of_not {next : α → Load β} (hn : ∀ a later, ¬ (next a).Escapes later) :
    (load >>= next).Escapes events ↔ load.Escapes events := by
  rw [escapes_bind_iff]
  exact or_iff_left fun ⟨a, later, _, h⟩ => hn a later h

theorem not_escapes_note (event : Event) : ¬ (note event).Escapes events := by
  rintro ⟨e, ⟨later, h⟩, -⟩
  cases h

theorem not_escapes_pure (a : α) : ¬ (pure a : Load α).Escapes events := by
  rintro ⟨e, ⟨later, h⟩, -⟩
  cases h

theorem run_liftM (result : Except Error α) (events : List Event) :
    ((liftM result : Load α).run events).run = (result, events) := by
  cases result <;> rfl

theorem escapes_liftM (result : Except Error α) :
    (liftM result : Load α).Escapes events ↔ ImportAlias.Escapes result := by
  simp [Load.Escapes, Stops, ImportAlias.Escapes, run_liftM]

theorem gives_liftM {result : Except Error α} {a : α} {later : List Event} :
    (liftM result : Load α).Gives events a later ↔ result = .ok a ∧ later = events := by
  rw [Gives, run_liftM, Prod.mk.injEq, eq_comm (a := events)]

end Load

/-- The value that a JSON file writes. -/
def Json.Writes (content : List UInt8) (value : Value) : Prop :=
  ∃ text, Text.decodeMarkedUtf8 content = .ok text ∧
    Json.read (Json.stripComments (Text.unifyNewlines text)) = .ok value

/-- What a JSON configuration can hold that nothing reports. -/
inductive JsonFlaw (content : List UInt8) : Prop
  | notUtf8 {cause : Text.DecodeError} (hd : Text.decodeMarkedUtf8 content = .error cause)
  | longInteger {text : List Char} {cause : Json.ReadError} {digits : Nat}
      (hd : Text.decodeMarkedUtf8 content = .ok text)
      (hr : Json.read (Json.stripComments (Text.unifyNewlines text)) = .error cause)
      (hl : cause.fault = .longInteger digits)
  | options {entries : Entries Value} (hw : Json.Writes content (.object entries))
      (hv : (Value.under entries "compilerOptions").isVacant = false)
      (ho : ∀ options, Value.under entries "compilerOptions" ≠ .object options)
  | baseUrl {entries options : Entries Value} (hw : Json.Writes content (.object entries))
      (ho : Value.under entries "compilerOptions" = .object options)
      (hn : Value.under options "baseUrl" ≠ .null)
      (ht : ∀ text, Value.under options "baseUrl" ≠ .string text)

/-- What a TOML configuration can hold that nothing reports. The base URL counts only if the paths
can be compiled, for they are looked at first. -/
inductive TomlFlaw (file : Path) (content : List UInt8) : Prop
  | notUtf8 {cause : Text.DecodeError} (hd : Text.decodeUtf8 content = .error cause)
  | longInteger {text : List Char} {digits : Nat} (hd : Text.decodeUtf8 content = .ok text)
      (hr : Toml.read (Text.unifyNewlines text) = .error (.longInteger digits))
  | baseUrl {text : List Char} {document settings : Entries Value}
      {paths : Entries (List String)} {mappings : List Mapping}
      (hd : Text.decodeUtf8 content = .ok text)
      (hr : Toml.read (Text.unifyNewlines text) = .ok document)
      (hs : FileTree.settingsTable file document = .ok settings)
      (hp : Settings.pathsOf file (Value.under settings "paths") = .ok paths)
      (hm : Mapping.ofPaths paths = .ok mappings)
      (hv : (Value.under settings "base_url").isVacant = false)
      (ht : ∀ text, Value.under settings "base_url" ≠ .string text)

/-- An entry that extends a path without a name, where there is no file. Such a path is a root,
named as it is or by dots from a file that lies in it. -/
def FileTree.ExtendsNameless (tree : FileTree) (file : Path) (entry : String) : Prop :=
  ∃ named : Path, named.names = [] ∧ tree.isFile named = false ∧
    ((Path.ofString entry).isAbsolute = true ∧ named = Path.ofString entry ∨
      (Path.ofString entry).isAbsolute = false ∧ entry.toList.head? = some '.' ∧
        named = file.parent / Path.ofString entry)

/-- The next task of an agenda is to open a path that no file has, or a file with a flaw, or to
follow an entry without a name. -/
inductive Agenda.Flawed (tree : FileTree) : Agenda → Prop
  | notAPath {file : Path} {opened : List Path} {tasks : List Task}
      (hp : file.isRepresentable = false) :
    Flawed tree ⟨opened, .file file :: tasks⟩
  | content {file : Path} {opened : List Path} {tasks : List Task} {content : List UInt8}
      (hs : file.resolve tree.current ∉ opened) (hr : tree.read file = .ok content)
      (hf : JsonFlaw content) :
    Flawed tree ⟨opened, .file file :: tasks⟩
  | nameless {file : Path} {entry : String} {opened : List Path} {tasks : List Task}
      (hn : tree.ExtendsNameless file entry) :
    Flawed tree ⟨opened, .entry file entry :: tasks⟩

/-- A context that is searched from is no path, or the configuration that a context and a file name
lead to has a flaw, or comes to one through what it extends. -/
inductive FileTree.Flawed (tree : FileTree) (context file : Option String) : Prop
  | notAPath (hf : file.filter (· ≠ "") = none)
      (hp : (Path.ofString (tree.contextText context)).isRepresentable = false)
  | toml {path : Path} {content : List UInt8} (hc : tree.chosenFile context file = .ok path)
      (he : path.extension = ".toml")
      (hr : tree.read (path.resolve tree.current) = .ok content)
      (hf : TomlFlaw (path.resolve tree.current) content)
  | json {path : Path} {agenda : Agenda} (hc : tree.chosenFile context file = .ok path)
      (he : path.extension ≠ ".toml")
      (hr : (Agenda.ofFile (path.resolve tree.current)).Reaches tree agenda)
      (hf : agenda.Flawed tree)

/-- What a command lists on lines has half of a surrogate pair in it. -/
inductive Command.Subcommand.Unprintable (tree : FileTree) : Command.Subcommand → Prop
  | base {arguments : MappingsArguments} {table : Table} (hf : arguments.format = .table)
      (ht : (tree.loadTable arguments.location.context arguments.location.project).result =
        .ok table)
      (hh : Text.holdsHalf table.baseDirectory.toString = true) :
    Unprintable tree (.mappings arguments)
  | mapping {arguments : MappingsArguments} {table : Table} {mapping : Mapping}
      (hf : arguments.format = .table)
      (ht : (tree.loadTable arguments.location.context arguments.location.project).result =
        .ok table)
      (hm : mapping ∈ arguments.shown table)
      (hh : Text.holdsHalf mapping.key = true ∨ Text.holdsHalf mapping.target = true) :
    Unprintable tree (.mappings arguments)

namespace Declaration

theorem optionsOf_eq_error_iff (entries : Entries Value) :
    (∃ fault, optionsOf entries = .error fault) ↔
      (Value.under entries "compilerOptions").isVacant = false ∧
        ∀ options, Value.under entries "compilerOptions" ≠ .object options := by
  unfold optionsOf
  by_cases hv : (Value.under entries "compilerOptions").isVacant = true
  · simp [hv]
  · simp only [hv]
    cases Value.under entries "compilerOptions" <;> simp

theorem optionsOf_eq_ok_iff (entries options : Entries Value) :
    optionsOf entries = .ok options ↔
      Value.under entries "compilerOptions" = .object options ∨
        (Value.under entries "compilerOptions").isVacant = true ∧ options = [] := by
  unfold optionsOf
  by_cases hv : (Value.under entries "compilerOptions").isVacant = true
  · cases hu : Value.under entries "compilerOptions" with
    | object found =>
      obtain rfl : found = [] := by simpa [hu, Value.isVacant] using hv
      simp [Value.isVacant, eq_comm]
    | _ =>
      rw [hu] at hv
      simp only [hv, if_true, Except.ok.injEq, reduceCtorEq, false_or, true_and]
      exact eq_comm
  · simp only [hv]
    cases Value.under entries "compilerOptions" <;> simp

theorem baseUrlOf_eq_error_iff (file : Path) (options : Entries Value) :
    (∃ fault, baseUrlOf file options = .error fault) ↔
      Value.under options "baseUrl" ≠ .null ∧
        ∀ text, Value.under options "baseUrl" ≠ .string text := by
  unfold baseUrlOf
  cases Value.under options "baseUrl" <;> simp

theorem escapes_ofEntries (file : Path) (entries : Entries Value) :
    Escapes (ofEntries file entries) ↔
      ((Value.under entries "compilerOptions").isVacant = false ∧
        ∀ options, Value.under entries "compilerOptions" ≠ .object options) ∨
      ∃ options, Value.under entries "compilerOptions" = .object options ∧
        Value.under options "baseUrl" ≠ .null ∧
        ∀ text, Value.under options "baseUrl" ≠ .string text := by
  simp only [ofEntries, escapes_bind_iff, escapes_mapError_iff, mapError_eq_ok_iff,
    Error.isReported, and_true, Bool.true_eq_false, and_false, exists_false, pure, Except.pure,
    not_escapes_ok, or_false, optionsOf_eq_error_iff, baseUrlOf_eq_error_iff, optionsOf_eq_ok_iff]
  refine or_congr_right (exists_congr fun options => and_congr_left fun hbase => ?_)
  refine or_iff_left ?_
  -- no options have no base URL
  rintro ⟨-, rfl⟩
  exact hbase.1 rfl

end Declaration

namespace FileTree

variable {tree : FileTree} {file : Path} {entry : String}

theorem readObject_eq_ok_iff {entries : Entries Value} :
    tree.readObject file = .ok entries ↔ ∃ content, tree.read file = .ok content ∧
      Json.Writes content (.object entries) := by
  simp only [readObject, bind_eq_ok_iff, mapError_eq_ok_iff, Json.Writes]
  refine exists_congr fun content => and_congr_right fun _ => exists_congr fun text =>
    and_congr_right fun _ => ?_
  split
  · simp_all [pure, Except.pure]
  · simp_all
  · split <;> simp_all

theorem escapes_readObject :
    Escapes (tree.readObject file) ↔ ∃ content, tree.read file = .ok content ∧
      ((∃ cause, Text.decodeMarkedUtf8 content = .error cause) ∨
        ∃ text, Text.decodeMarkedUtf8 content = .ok text ∧ ∃ cause digits,
          Json.read (Json.stripComments (Text.unifyNewlines text)) = .error cause ∧
          cause.fault = .longInteger digits) := by
  simp only [readObject, escapes_bind_iff, escapes_mapError_iff, mapError_eq_ok_iff,
    Error.isReported, and_true, Bool.true_eq_false, and_false, exists_false, false_or]
  refine exists_congr fun content => and_congr_right fun _ => or_congr_right ?_
  refine exists_congr fun text => and_congr_right fun _ => ?_
  cases Json.read (Json.stripComments (Text.unifyNewlines text)) with
  | ok value => cases value <;> simp [Escapes, Error.isReported, pure, Except.pure]
  | error cause =>
    cases hf : cause.fault <;> simp [Escapes, Error.isReported, hf]

theorem withJson?_eq_none_iff (path : Path) : withJson? path = none ↔ path.names = [] := by
  obtain ⟨anchor, names⟩ := path
  cases names with
  | nil =>
    have he : Path.extension ⟨anchor, []⟩ ≠ ".json" := by
      simp [Path.extension, Path.name?]
    simp [withJson?, he, Path.extended?, Path.name?]
  | cons name names =>
    unfold withJson?
    split <;> simp [Path.extended?, Path.name?]

theorem names_div_ne_nil {path other : Path} (ho : other.names ≠ []) :
    (path / other).names ≠ [] := by
  change (path.join other).names ≠ []
  unfold Path.join
  split
  · exact ho
  · simp [ho]

theorem names_ne_nil_of_package {start found : Path}
    (ha : (Path.ofString entry).isAbsolute = false) (h : tree.package entry start = .ok found) :
    found.names ≠ [] := by
  have hmodules : (Path.ofString "node_modules").names ≠ [] := by decide
  have hconfig : (Path.ofString "tsconfig.json").names ≠ [] := by decide
  have hcandidate : ∀ directory : Path,
      (directory / Path.ofString "node_modules" / Path.ofString entry).names ≠ [] := by
    intro directory
    have hd : (directory / Path.ofString "node_modules").names ≠ [] := names_div_ne_nil hmodules
    change (Path.join _ (Path.ofString entry)).names ≠ []
    simp [Path.join, ha, hd]
  unfold package at h
  split at h
  · rename_i file hfound
    obtain rfl : file = found := by simpa using h
    obtain ⟨directory, -, hin⟩ := List.exists_of_findSome?_eq_some hfound
    simp only [packageIn?] at hin
    split at hin
    · obtain rfl := Option.some.inj hin
      exact names_div_ne_nil hconfig
    · split at hin
      · obtain rfl := Option.some.inj hin
        exact hcandidate directory
      · cases hin
  · cases h

/-- The file that a path names, whose `.json` may be left out. -/
def completed (tree : FileTree) (named : Path) : Except Error Path :=
  if tree.isFile named then .ok named
  else
    match withJson? named with
    | some extended => .ok extended
    | none => .error (.unreported (.namelessPath named))

theorem extendedFile_eq (file : Path) (entry : String) :
    tree.extendedFile file entry =
      if (Path.ofString entry).isAbsolute then tree.completed (Path.ofString entry)
      else if entry.toList.head? = some '.' then
        tree.completed (file.parent / Path.ofString entry)
      else tree.package entry file.parent >>= tree.completed := by
  unfold extendedFile
  dsimp only
  split
  · rfl
  · split <;> rfl

theorem escapes_completed (named : Path) :
    Escapes (tree.completed named) ↔ named.names = [] ∧ tree.isFile named = false := by
  rw [← withJson?_eq_none_iff, completed]
  cases tree.isFile named with
  | true => simp [Escapes]
  | false => cases withJson? named <;> simp [Escapes, Error.isReported]

theorem escapes_extendedFile :
    Escapes (tree.extendedFile file entry) ↔ tree.ExtendsNameless file entry := by
  rw [extendedFile_eq]
  unfold ExtendsNameless
  by_cases ha : (Path.ofString entry).isAbsolute = true
  · rw [if_pos ha, escapes_completed]
    simp [ha]
  rw [Bool.not_eq_true] at ha
  by_cases hd : entry.toList.head? = some '.'
  · rw [if_neg (by simp [ha]), if_pos hd, escapes_completed]
    simp [ha, hd]
  -- a package is missed or has a name
  rw [if_neg (by simp [ha]), if_neg hd, escapes_bind_iff]
  simp only [ha, hd, Bool.false_eq_true, false_and, and_false, or_self, exists_false, iff_false]
  rintro (⟨e, he, hreported⟩ | ⟨named, hp, hescapes⟩)
  · unfold package at he
    split at he
    · cases he
    · cases he
      cases hreported
  · exact names_ne_nil_of_package ha hp ((escapes_completed named).mp hescapes).1

end FileTree

/-- A task fails with an error that nothing reports exactly if it has a flaw. -/
theorem Agenda.fails_iff_flawed (tree : FileTree) (agenda : Agenda) :
    (∃ e, agenda.Fails tree e ∧ e.isReported = false) ↔ agenda.Flawed tree := by
  constructor
  · rintro ⟨e, hf, he⟩
    cases hf with
    | locating hp =>
      refine .notAPath (Bool.eq_false_iff.mpr fun hr => ?_)
      rw [Path.fault?_eq_none_iff.mpr hr] at hp
      cases hp
    | reading _ hs hr =>
      obtain ⟨content, hread, ⟨cause, hd⟩ | ⟨text, hd, cause, digits, hj, hl⟩⟩ :=
        FileTree.escapes_readObject.mp ⟨e, hr, he⟩
      · exact .content hs hread (.notUtf8 hd)
      · exact .content hs hread (.longInteger hd hj hl)
    | declaring _ hs hr ho =>
      obtain ⟨content, hread, hw⟩ := FileTree.readObject_eq_ok_iff.mp hr
      rcases (Declaration.escapes_ofEntries _ _).mp ⟨e, ho, he⟩ with
        ⟨hv, hno⟩ | ⟨options, hoptions, hn, ht⟩
      · exact .content hs hread (.options hw hv hno)
      · exact .content hs hread (.baseUrl hw hoptions hn ht)
    | following hfollow => exact .nameless (FileTree.escapes_extendedFile.mp ⟨e, hfollow, he⟩)
  · intro hflawed
    cases hflawed with
    | @notAPath file _ _ hp =>
      cases hfault : file.fault? with
      | none => simp [Path.fault?_eq_none_iff.mp hfault] at hp
      | some fault => exact ⟨_, .locating hfault, rfl⟩
    | content hs hread hf =>
      have hp := Path.fault?_eq_none_iff.mpr (FileTree.isRepresentable_of_read hread)
      cases hf with
      | notUtf8 hd =>
        obtain ⟨e, hr, he⟩ := FileTree.escapes_readObject.mpr ⟨_, hread, .inl ⟨_, hd⟩⟩
        exact ⟨e, .reading hp hs hr, he⟩
      | longInteger hd hj hl =>
        obtain ⟨e, hr, he⟩ :=
          FileTree.escapes_readObject.mpr ⟨_, hread, .inr ⟨_, hd, _, _, hj, hl⟩⟩
        exact ⟨e, .reading hp hs hr, he⟩
      | options hw hv hno =>
        obtain ⟨e, ho, he⟩ := (Declaration.escapes_ofEntries _ _).mpr (.inl ⟨hv, hno⟩)
        exact ⟨e, .declaring hp hs (FileTree.readObject_eq_ok_iff.mpr ⟨_, hread, hw⟩) ho, he⟩
      | baseUrl hw hoptions hn ht =>
        obtain ⟨e, ho, he⟩ :=
          (Declaration.escapes_ofEntries _ _).mpr (.inr ⟨_, hoptions, hn, ht⟩)
        exact ⟨e, .declaring hp hs (FileTree.readObject_eq_ok_iff.mpr ⟨_, hread, hw⟩) ho, he⟩
    | nameless hn =>
      obtain ⟨e, hfollow, he⟩ := FileTree.escapes_extendedFile.mpr hn
      exact ⟨e, .following hfollow, he⟩

theorem Settings.baseDirectory_eq_error_iff (current : Path) (settings : Settings) :
    (∃ fault, settings.baseDirectory current = .error fault) ↔
      settings.baseUrl.isVacant = false ∧ ∀ text, settings.baseUrl ≠ .string text := by
  simp only [baseDirectory]
  by_cases hv : settings.baseUrl.isVacant = true
  · simp [hv]
  · simp only [hv]
    cases settings.baseUrl <;> simp

namespace FileTree

variable {tree : FileTree} {path : Path} {settings : Settings} {events : List Event}

theorem escapes_table :
    (tree.table settings).Escapes events ↔
      (∃ mappings, Mapping.ofPaths settings.paths = .ok mappings) ∧
        settings.baseUrl.isVacant = false ∧ ∀ text, settings.baseUrl ≠ .string text := by
  unfold FileTree.table
  rw [Load.escapes_bind_of_not, Load.escapes_liftM]
  swap
  · intro table later
    rw [Load.escapes_bind_of_not fun _ _ => Load.not_escapes_pure _]
    exact Load.not_escapes_note _
  simp only [Table.ofSettings, escapes_bind_iff, escapes_mapError_iff, mapError_eq_ok_iff,
    Error.isReported, and_true, Bool.true_eq_false, and_false, exists_false, false_or, pure,
    Except.pure, not_escapes_ok, or_false, Settings.baseDirectory_eq_error_iff]
  exact exists_and_right

theorem isFile_of_chosenFile {context file : Option String}
    (h : tree.chosenFile context file = .ok path) : tree.isFile path = true := by
  dsimp only [chosenFile] at h
  split at h
  · split at h
    · rename_i hfile
      rwa [← Except.ok.inj h]
    · cases h
  · obtain ⟨found, hfound, h⟩ := (bind_eq_ok_iff _ _ _).mp h
    obtain ⟨start, -, hstart⟩ := (bind_eq_ok_iff _ _ _).mp ((mapError_eq_ok_iff _ _ _).mp hfound)
    split at h
    · rw [← Except.ok.inj h]
      exact List.find?_some (Except.ok.inj hstart)
    · cases h

/-- A file is not chosen for a reason that nothing reports exactly if it is searched from what is
no path. -/
theorem escapes_chosenFile {context file : Option String} :
    Escapes (tree.chosenFile context file) ↔ file.filter (· ≠ "") = none ∧
      (Path.ofString (tree.contextText context)).isRepresentable = false := by
  dsimp only [chosenFile]
  split
  · rename_i hfile
    rw [hfile]
    split <;> simp [Escapes, Error.isReported, pure, Except.pure]
  · rename_i hfile
    rw [hfile]
    cases hr : (Path.ofString (tree.contextText context)).isRepresentable with
    | true =>
      rw [tree.find?_of_isRepresentable defaultNames hr, escapes_bind_iff]
      simp only [Except.mapError, not_escapes_ok, Except.ok.injEq, exists_eq_left', false_or,
        Bool.true_eq_false, and_false, iff_false]
      split <;> simp [Escapes, Error.isReported, pure, Except.pure]
    | false =>
      obtain ⟨fault, -, he⟩ := tree.exists_find?_eq_error defaultNames hr
      rw [he]
      exact iff_of_true ⟨_, rfl, rfl⟩ ⟨rfl, rfl⟩

variable (hp : path.isRepresentable = true)

include hp

theorem escapes_loadToml :
    Escapes (tree.loadToml path) ↔ ∃ content, tree.read (path.resolve tree.current) = .ok content ∧
      ((∃ cause, Text.decodeUtf8 content = .error cause) ∨
        ∃ text, Text.decodeUtf8 content = .ok text ∧ ∃ digits,
          Toml.read (Text.unifyNewlines text) = .error (.longInteger digits)) := by
  simp only [loadToml, tree.locate_of_isRepresentable hp, escapes_bind_iff, escapes_mapError_iff,
    mapError_eq_ok_iff, Except.ok.injEq, exists_eq_left', reduceCtorEq, Error.isReported,
    and_true, Bool.true_eq_false, and_false, exists_false, false_or, pure, Except.pure,
    not_escapes_ok, or_false]
  refine exists_congr fun content => and_congr_right fun _ => or_congr_right ?_
  refine exists_congr fun text => and_congr_right fun _ => ⟨?_, ?_⟩
  · rintro ⟨e, hr, he⟩
    cases e with
    | malformed => cases he
    | longInteger digits => exact ⟨digits, hr⟩
  · rintro ⟨digits, hr⟩
    exact ⟨_, hr, rfl⟩

theorem loadToml_eq_ok_iff :
    tree.loadToml path = .ok settings ↔
      ∃ content, tree.read (path.resolve tree.current) = .ok content ∧
      ∃ text, Text.decodeUtf8 content = .ok text ∧
      ∃ document, Toml.read (Text.unifyNewlines text) = .ok document ∧
      ∃ table, settingsTable (path.resolve tree.current) document = .ok table ∧
      ∃ paths,
        Settings.pathsOf (path.resolve tree.current) (Value.under table "paths") = .ok paths ∧
        settings = ⟨(path.resolve tree.current).toString, Value.under table "base_url", paths⟩ := by
  simp only [loadToml, tree.locate_of_isRepresentable hp, bind_eq_ok_iff, mapError_eq_ok_iff, pure,
    Except.pure, Except.ok.injEq, exists_eq_left']
  simp only [eq_comm (a := settings)]

theorem escapes_toml :
    (liftM (tree.loadToml path) >>= tree.table : Load Table).Escapes events ↔
      ∃ content, tree.read (path.resolve tree.current) = .ok content ∧
        TomlFlaw (path.resolve tree.current) content := by
  rw [Load.escapes_bind_iff, Load.escapes_liftM, escapes_loadToml hp]
  simp only [Load.gives_liftM, loadToml_eq_ok_iff hp, escapes_table]
  constructor
  · rintro (⟨content, hread, ⟨cause, hd⟩ | ⟨text, hd, digits, hr⟩⟩ | ⟨settings, later,
      ⟨⟨content, hread, text, hd, document, hr, table, hs, paths, hp, rfl⟩, rfl⟩,
      ⟨mappings, hm⟩, hv, ht⟩)
    · exact ⟨content, hread, .notUtf8 hd⟩
    · exact ⟨content, hread, .longInteger hd hr⟩
    · exact ⟨content, hread, .baseUrl hd hr hs hp hm hv ht⟩
  · rintro ⟨content, hread, hf⟩
    cases hf with
    | notUtf8 hd => exact .inl ⟨content, hread, .inl ⟨_, hd⟩⟩
    | longInteger hd hr => exact .inl ⟨content, hread, .inr ⟨_, hd, _, hr⟩⟩
    | baseUrl hd hr hs hp hm hv ht =>
      exact .inr ⟨_, _, ⟨⟨content, hread, _, hd, _, hr, _, hs, _, hp, rfl⟩, rfl⟩, ⟨_, hm⟩, hv, ht⟩

omit hp in
theorem escapes_json (hc : tree.current.anchor = .root) :
    (tree.loadJson path >>= tree.table).Escapes [] ↔ ∃ agenda : Agenda,
      (Agenda.ofFile (path.resolve tree.current)).Reaches tree agenda ∧ agenda.Flawed tree := by
  -- the base URL that is found below a file is a text or absent, and is fit for a table
  have hrest : ∀ (found : Declaration) (events : List Event), ¬ ((do
      let paths ← (Settings.pathsOf (path.resolve tree.current) found.paths).mapError Error.config
      Load.note (.loaded paths.length (path.resolve tree.current) found.baseUrl)
      let baseUrl := (found.baseUrl.map fun base => Value.string base.toString).getD .null
      return ⟨(path.resolve tree.current).toString, baseUrl, paths⟩ : Load Settings) >>=
        tree.table).Escapes events := by
    intro found events h
    simp only [bind_assoc, pure_bind, Load.escapes_bind_iff, Load.escapes_liftM,
      escapes_mapError_iff, escapes_table, Load.not_escapes_note, Error.isReported] at h
    obtain ⟨-, -, h⟩ | ⟨paths, later, -, h | ⟨_, _, -, -, hv, ht⟩⟩ := h
    · cases h
    · exact h
    · cases hb : found.baseUrl with
      | none => simp [hb, Value.isVacant] at hv
      | some base => exact ht base.toString (by simp [hb])
  simp only [loadJson]
  rw [bind_assoc, Load.escapes_bind_of_not hrest]
  constructor
  · rintro ⟨e, hstops, he⟩
    obtain ⟨agenda, hr, hf⟩ := (declared_stops_iff hc _ e).mp hstops
    exact ⟨agenda, hr, (agenda.fails_iff_flawed tree).mp ⟨e, hf, he⟩⟩
  · rintro ⟨agenda, hr, hflawed⟩
    obtain ⟨e, hf, he⟩ := (agenda.fails_iff_flawed tree).mpr hflawed
    exact ⟨e, (declared_stops_iff hc _ e).mpr ⟨agenda, hr, hf⟩, he⟩

omit hp in
/-- A table is not loaded for a reason that nothing reports exactly if its configuration is
flawed. -/
theorem escapes_loadTable (hc : tree.current.anchor = .root) (context file : Option String) :
    Escapes (tree.loadTable context file).result ↔ tree.Flawed context file := by
  rw [Load.escapes_result]
  unfold loadTable load
  rw [bind_assoc, Load.escapes_bind_iff, Load.escapes_liftM, escapes_chosenFile]
  simp only [Load.gives_liftM]
  constructor
  · rintro (⟨hf, hp⟩ | ⟨path, later, ⟨hpath, rfl⟩, h⟩)
    · exact .notAPath hf hp
    by_cases ht : path.extension = ".toml"
    · rw [if_pos ht] at h
      have hp := isRepresentable_of_isFile (isFile_of_chosenFile hpath)
      obtain ⟨content, hread, hflaw⟩ := (escapes_toml hp).mp h
      exact .toml hpath ht hread hflaw
    · rw [if_neg ht] at h
      obtain ⟨agenda, hreach, hflaw⟩ := (escapes_json hc).mp h
      exact .json hpath ht hreach hflaw
  · intro hflawed
    cases hflawed with
    | notAPath hf hp => exact .inl ⟨hf, hp⟩
    | @toml path content hpath ht hread hflaw =>
      have hp := isRepresentable_of_isFile (isFile_of_chosenFile hpath)
      refine .inr ⟨path, [], ⟨hpath, rfl⟩, ?_⟩
      rw [if_pos ht]
      exact (escapes_toml hp).mpr ⟨content, hread, hflaw⟩
    | @json path agenda hpath ht hreach hflaw =>
      refine .inr ⟨path, [], ⟨hpath, rfl⟩, ?_⟩
      rw [if_neg ht]
      exact (escapes_json hc).mpr ⟨agenda, hreach, hflaw⟩

end FileTree

namespace Command

/-- Listing mappings that are loaded is an error that nothing reports exactly if a line cannot be
printed. -/
theorem MappingsArguments.escapes_run (arguments : MappingsArguments) (tree : FileTree) :
    Escapes (arguments.run tree).result ↔
      Escapes (tree.loadTable arguments.location.context arguments.location.project).result ∨
        Subcommand.Unprintable tree (.mappings arguments) := by
  rw [Load.escapes_result, Load.escapes_result, run, Load.escapes_bind_iff]
  refine or_congr_right ?_
  cases hf : arguments.format with
  | json =>
    refine iff_of_false ?_ ?_
    · rintro ⟨table, later, -, h⟩
      exact Load.not_escapes_pure _ h
    · intro h
      cases h <;> simp_all
  | table =>
    have hlisted : ∀ table : Table,
        Escapes ((printed (mappingLines table (arguments.shown table))).mapError
            Error.unreported) ↔
          Text.holdsHalf table.baseDirectory.toString = true ∨
            ∃ mapping ∈ arguments.shown table, Text.holdsHalf mapping.key = true ∨
              Text.holdsHalf mapping.target = true := by
      intro table
      simp only [escapes_mapError_iff, Error.isReported, and_true, printed_eq_error_iff,
        holdsHalf_mappingLines]
    simp only [Load.escapes_liftM, hlisted, exists_and_right, Load.exists_gives_iff]
    constructor
    · rintro ⟨table, ht, hh | ⟨mapping, hm, hh⟩⟩
      · exact .base hf ht hh
      · exact .mapping hf ht hm hh
    · intro h
      cases h with
      | base _ ht hh => exact ⟨_, ht, .inl hh⟩
      | mapping _ ht hm hh => exact ⟨_, ht, .inr ⟨_, hm, hh⟩⟩

/-- A command ends in an error that nothing reports exactly if its load does or what it lists
cannot be printed. -/
theorem Subcommand.escapes_run (command : Subcommand) (tree : FileTree) :
    Escapes (command.run tree).result ↔
      Escapes (tree.loadTable command.location.context command.location.project).result ∨
        command.Unprintable tree := by
  cases command with
  | mappings arguments => exact arguments.escapes_run tree
  | resolve arguments =>
    have hprintable : ¬ Unprintable tree (.resolve arguments) := by
      intro h
      cases h
    rw [or_iff_left hprintable, Load.escapes_result, Load.escapes_result]
    refine Load.escapes_bind_of_not fun table later => ?_
    cases table.resolve (some arguments.specifier) with
    | redirect redirect =>
      refine (Load.escapes_bind_of_not fun _ _ => Load.not_escapes_pure _).not.mpr ?_
      exact Load.not_escapes_note _
    | _ => exact Load.not_escapes_pure _

/-- A command whose line is well-formed ends with exit code 0 or 1, unless it ends in an error that
nothing reports. -/
theorem finishes_iff {args : List String} {debug : Bool} {command : Subcommand} (tree : FileTree)
    (ha : Invocation.ofArguments args = .ok ⟨debug, some command⟩) :
    (∃ output, run tree args = .ok (.finished output) ∧
        (output.exitCode = 0 ∨ output.exitCode = 1)) ↔ ¬ Escapes (command.run tree).result := by
  simp only [run, ha, Invocation.execute, Load.result]
  rcases (command.run tree).start with ⟨e | text, events⟩
  · cases hr : e.isReported <;> simp [Escapes, hr, bind, Except.bind, pure, Except.pure]
  · simp [Escapes, bind, Except.bind, pure, Except.pure]

end Command

theorem reported_iff (result : Except Error α) :
    ((∃ a, result = .ok a) ∨ (∃ cause, result = .error (.config cause)) ∨
        ∃ cause, result = .error (.pattern cause)) ↔ ¬ Escapes result := by
  rcases result with (cause | cause | cause) | a <;> simp [Escapes, Error.isReported]

/-- When every error is reported. From a context and a file name there is a table, or an error of
the configuration or of an alias, exactly if there is no flaw; and so a command ends with exit code
0 or 1, unless it lists what cannot be printed. -/
theorem reports_iff {tree : FileTree} (hc : tree.current.anchor = .root) :
    (∀ context file : Option String,
      ((∃ table, (tree.loadTable context file).result = .ok table) ∨
        (∃ cause, (tree.loadTable context file).result = .error (.config cause)) ∨
        ∃ cause, (tree.loadTable context file).result = .error (.pattern cause)) ↔
      ¬ tree.Flawed context file) ∧
    ∀ (args : List String) (debug : Bool) (command : Command.Subcommand),
      Command.Invocation.ofArguments args = .ok ⟨debug, some command⟩ →
      ((∃ output, Command.run tree args = .ok (.finished output) ∧
          (output.exitCode = 0 ∨ output.exitCode = 1)) ↔
        ¬ tree.Flawed command.location.context command.location.project ∧
          ¬ command.Unprintable tree) := by
  refine ⟨fun context file => ?_, fun args debug command ha => ?_⟩
  · rw [reported_iff, tree.escapes_loadTable hc]
  · rw [Command.finishes_iff tree ha, command.escapes_run, tree.escapes_loadTable hc, not_or]

namespace NumericOptions

def text : String :=
  "\x7b\"compilerOptions\": 5\x7d"

def tree : FileTree where
  files := [(["p", "tsconfig.json"], text.toUTF8.toList)]
  directories := [["p"]]
  current := ⟨.root, ["p"]⟩

theorem flawed : tree.Flawed none (some "tsconfig.json") := by
  have hw : Json.Writes text.toUTF8.toList (.object [("compilerOptions", .integer 5)]) :=
    ⟨text.toList, by cbv, by cbv⟩
  have hflaw : JsonFlaw text.toUTF8.toList := .options hw rfl (by simp [Value.under, Entries.get?])
  have hchosen : tree.chosenFile none (some "tsconfig.json") =
      .ok ⟨.root, ["p", "tsconfig.json"]⟩ := rfl
  exact .json hchosen (by decide) .refl (.content List.not_mem_nil rfl hflaw)

def command : Command.Subcommand :=
  .mappings ⟨⟨some "tsconfig.json", none⟩, .json, false⟩

theorem ofArguments_command :
    Command.Invocation.ofArguments ["mappings", "-p", "tsconfig.json"] =
      .ok ⟨false, some command⟩ :=
  rfl

/-- Another file is missed, which is reported, and this one is not. -/
theorem reports_iff_missing :
    tree.current.anchor = .root ∧
    ((∃ table, (tree.loadTable none (some "jsconfig.json")).result = .ok table) ∨
      (∃ cause, (tree.loadTable none (some "jsconfig.json")).result = .error (.config cause)) ∨
      ∃ cause, (tree.loadTable none (some "jsconfig.json")).result = .error (.pattern cause)) ∧
    ¬ ∃ output,
      Command.run tree ["mappings", "-p", "tsconfig.json"] = .ok (.finished output) ∧
        (output.exitCode = 0 ∨ output.exitCode = 1) := by
  obtain ⟨hload, hrun⟩ := @reports_iff tree rfl
  refine ⟨rfl, (hload none (some "jsconfig.json")).mpr ?_, ?_⟩
  · have hmissing : ∀ path, tree.chosenFile none (some "jsconfig.json") ≠ .ok path := by
      intro path hpath
      cases hpath
    intro h
    cases h with
    | notAPath hf => cases hf
    | toml hpath => exact hmissing _ hpath
    | json hpath => exact hmissing _ hpath
  · exact fun h => ((hrun _ _ _ ofArguments_command).mp h).1 flawed

/-- Compiler options that are a number are not reported by the load, nor by the command. -/
theorem numericOptions_not_reported :
    (¬ ((∃ table, (tree.loadTable none (some "tsconfig.json")).result = .ok table) ∨
      (∃ cause, (tree.loadTable none (some "tsconfig.json")).result = .error (.config cause)) ∨
      ∃ cause, (tree.loadTable none (some "tsconfig.json")).result = .error (.pattern cause))) ∧
    Command.Invocation.ofArguments ["mappings", "-p", "tsconfig.json"] =
      .ok ⟨false, some command⟩ ∧
    ¬ ∃ output,
      Command.run tree ["mappings", "-p", "tsconfig.json"] = .ok (.finished output) ∧
        (output.exitCode = 0 ∨ output.exitCode = 1) := by
  have hescapes := (tree.escapes_loadTable rfl none (some "tsconfig.json")).mpr flawed
  have hrun := Command.finishes_iff tree ofArguments_command
  exact ⟨fun h => (reported_iff _).mp h hescapes, ofArguments_command,
    fun h => hrun.mp h ((command.escapes_run tree).mpr (.inl hescapes))⟩

end NumericOptions

end ImportAlias
