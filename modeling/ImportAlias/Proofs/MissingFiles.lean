import ImportAlias.Proofs.Ending
import ImportAlias.Proofs.Reporting

/-!
# Files that are missing

A configuration that is named and not there is reported as missing, and nothing
else is: whatever is wrong with a file that is there, with the files it extends
or with its table is another error. So a text that names a file has the table of
this file, or the error says which file was looked for.
-/

namespace ImportAlias

/-- A result other than that a named file does not exist. -/
def Present {α : Type} (result : Except Error α) : Prop :=
  ∀ file, result ≠ .error (.config (.missingFile file))

section

variable {α β ε : Type}

theorem present_ok (a : α) : Present (.ok a) :=
  nofun

theorem Present.error {e : Error} (h : Present (.error e : Except Error α)) :
    Present (.error e : Except Error β) :=
  fun file he => h file (congrArg Except.error (Except.error.inj he))

theorem Present.bind {result : Except Error α} {next : α → Except Error β} (h : Present result)
    (hn : ∀ a, Present (next a)) : Present (result >>= next) := by
  cases result with
  | error e => exact h.error
  | ok a => exact hn a

theorem present_mapError {change : ε → Error} (result : Except ε α)
    (h : ∀ cause, result = .error cause → ∀ file, change cause ≠ .config (.missingFile file)) :
    Present (result.mapError change) := by
  intro file he
  cases result with
  | error cause => exact h cause rfl file (Except.error.inj he)
  | ok a => cases he

end

theorem Declaration.present_ofEntries (file : Path) (entries : Entries Value) :
    Present (Declaration.ofEntries file entries) := by
  refine (present_mapError _ nofun).bind fun options => ?_
  refine (present_mapError _ nofun).bind fun baseUrl => ?_
  refine (present_mapError _ fun cause hcause missing => ?_).bind fun extended => present_ok _
  unfold extendedBy at hcause
  split at hcause
  · cases hcause
  · split at hcause
    · cases hcause
    · cases hcause
      nofun

theorem Settings.present_pathsOf (file : Path) (value : Value) :
    Present ((Settings.pathsOf file value).mapError .config) := by
  refine present_mapError _ fun cause hcause missing => ?_
  have hcollect : ∀ entries cause, pathsOf.collect file entries = .error cause →
      ∃ key, cause = .targetsNotText key file := by
    intro entries
    induction entries with
    | nil => nofun
    | cons entry rest ih =>
      intro cause hc
      unfold pathsOf.collect at hc
      split at hc
      · exact ⟨_, (Except.error.inj hc).symm⟩
      · cases hr : pathsOf.collect file rest with
        | error cause' =>
          rw [hr] at hc
          obtain ⟨key, rfl⟩ := ih cause' hr
          exact ⟨key, (Except.error.inj hc).symm⟩
        | ok paths =>
          rw [hr] at hc
          cases hc
  unfold pathsOf at hcause
  split at hcause
  · cases hcause
  · obtain ⟨key, rfl⟩ := hcollect _ _ hcause
    nofun
  · cases hcause
    nofun

namespace FileTree

variable {tree : FileTree} {file path : Path}

theorem present_readObject : Present (tree.readObject file) := by
  refine (present_mapError _ nofun).bind fun bytes => ?_
  refine (present_mapError _ nofun).bind fun text => ?_
  split
  · exact present_ok _
  · nofun
  · split <;> nofun

theorem present_package (entry : String) (start : Path) : Present (tree.package entry start) := by
  unfold package
  split
  · exact present_ok _
  · nofun

theorem present_completed (named : Path) : Present (tree.completed named) := by
  unfold completed
  split
  · exact present_ok _
  · split
    · exact present_ok _
    · nofun

theorem present_extendedFile (entry : String) : Present (tree.extendedFile file entry) := by
  rw [extendedFile_eq]
  split
  · exact present_completed _
  · split
    · exact present_completed _
    · exact (present_package _ _).bind present_completed

end FileTree

/-- No task fails because a file that was named is missing. -/
theorem Agenda.Fails.present {tree : FileTree} {agenda : Agenda} {e : Error}
    (h : agenda.Fails tree e) (missing : Path) : e ≠ .config (.missingFile missing) := by
  rintro rfl
  cases h with
  | reading _ _ hr => exact FileTree.present_readObject missing hr
  | declaring _ _ _ ho => exact Declaration.present_ofEntries _ _ missing ho
  | following he => exact FileTree.present_extendedFile _ missing he

theorem Load.result_bind {α β : Type} (load : Load α) (next : α → Load β) :
    (load >>= next).result =
      match load.start with
      | (.ok a, later) => ((next a).run later).run.1
      | (.error e, _) => .error e := by
  rw [result, start, run_bind]
  change Prod.fst (match load.start with
    | (.ok a, later) => ((next a).run later).run
    | (.error e, later) => (.error e, later)) = _
  rcases load.start with ⟨e | a, later⟩ <;> rfl

namespace FileTree

variable {tree : FileTree} {path : Path}

theorem present_loadJson (hc : tree.current.anchor = .root) (path : Path) :
    Present (tree.loadJson path).result := by
  obtain ⟨found, later, hg, -⟩ | ⟨e, hstops, failed, -, hf⟩ :=
    performs_declared hc (path.resolve tree.current) [] [] Agenda.sound_nil (Nat.le_add_right _ _)
  · have hpaths := Settings.present_pathsOf (path.resolve tree.current) found.paths
    rw [Load.result, start_loadJson hg]
    cases hp : Settings.pathsOf (path.resolve tree.current) found.paths with
    | error cause =>
      rw [hp] at hpaths
      exact hpaths.error
    | ok paths => exact present_ok _
  · obtain ⟨later, hl⟩ := hstops.bind _
    intro missing he
    exact hf.present missing (Except.error.inj ((congrArg Prod.fst hl).symm.trans he))

theorem present_loadToml (path : Path) : Present (tree.loadToml path) := by
  refine (present_mapError _ nofun).bind fun file => ?_
  refine (present_mapError _ nofun).bind fun bytes => ?_
  refine (present_mapError _ nofun).bind fun text => ?_
  refine (present_mapError _ fun cause _ => ?_).bind fun document => ?_
  · cases cause <;> nofun
  refine (present_mapError _ fun cause hcause missing => ?_).bind fun settings => ?_
  · unfold settingsTable at hcause
    split at hcause
    · cases hcause
    · split at hcause <;> cases hcause
      nofun
    · cases hcause
      nofun
  exact (Settings.present_pathsOf _ _).bind fun paths => present_ok _

theorem present_table (settings : Settings) (events : List Event) :
    Present ((tree.table settings).run events).run.1 := by
  have hmade : Present (Table.ofSettings tree.current settings) := by
    refine (present_mapError _ nofun).bind fun mappings => ?_
    exact (present_mapError _ nofun).bind fun base => present_ok _
  rw [table, Load.run_bind, Load.run_liftM]
  cases hm : Table.ofSettings tree.current settings with
  | error e =>
    rw [hm] at hmade
    exact hmade.error
  | ok table => exact present_ok _

/-- The settings that a file writes, in the format of its extension. -/
def settingsOf (tree : FileTree) (path : Path) : Load Settings :=
  if path.extension = ".toml" then liftM (tree.loadToml path) else tree.loadJson path

def tableOf (tree : FileTree) (path : Path) : Load Table :=
  tree.settingsOf path >>= tree.table

/-- A file that is there may be wrong in many ways but is not reported as missing. -/
theorem present_tableOf (hc : tree.current.anchor = .root) (path : Path) :
    Present (tree.tableOf path).result := by
  have hfile : Present (tree.settingsOf path).result := by
    unfold settingsOf
    split
    · exact present_loadToml path
    · exact present_loadJson hc path
  rw [tableOf, Load.result_bind]
  rw [Load.result] at hfile
  split
  · exact present_table _ _
  · rename_i hr
    rw [hr] at hfile
    exact hfile.error

theorem tableOf_congr {other : Path} (hp : path.isRepresentable = true)
    (ho : other.isRepresentable = true) (he : path.extension = other.extension)
    (hr : path.resolve tree.current = other.resolve tree.current) :
    tree.tableOf path = tree.tableOf other := by
  simp only [tableOf, settingsOf, loadToml, loadJson, tree.locate_of_isRepresentable hp,
    tree.locate_of_isRepresentable ho, he, hr]

theorem load_of_chosen {context file : Option String}
    (h : tree.chosenFile context file = .ok path) :
    tree.load context file = tree.settingsOf path := by
  rw [load, h]
  rfl

theorem loadTable_of_chosen {context file : Option String}
    (h : tree.chosenFile context file = .ok path) :
    tree.loadTable context file = tree.tableOf path := by
  rw [loadTable, load_of_chosen h, tableOf]

theorem result_loadTable_of_error {context file : Option String} {e : Error}
    (h : tree.chosenFile context file = .error e) :
    (tree.loadTable context file).result = .error e := by
  rw [loadTable, load, h]
  rfl

/-- The file that a text names in a context, the working directory by default. -/
def fileIn (tree : FileTree) (context : Option String) (project : String) : Path :=
  Path.ofString (tree.contextText context) / Path.ofString project

theorem chosenFile_some {project : String} (hp : project ≠ "") (context : Option String) :
    tree.chosenFile context (some project) =
      if tree.isFile (tree.fileIn context project) then .ok (tree.fileIn context project)
      else .error (.config (.missingFile (tree.fileIn context project))) := by
  have hgiven : (some project).filter (· ≠ "") = some project := by simp [hp]
  unfold chosenFile
  dsimp only
  rw [hgiven]
  rfl

/-- A text that names a file is read as that file or reported as missing. -/
theorem loadTable_some_eq_iff {project : String} (hp : project ≠ "") (context : Option String)
    {result : Except Error Table} (hr : Present result) :
    (tree.loadTable context (some project)).result = result ↔
      tree.isFile (tree.fileIn context project) = true ∧
        (tree.tableOf (tree.fileIn context project)).result = result := by
  have hchosen := tree.chosenFile_some hp context
  cases hf : tree.isFile (tree.fileIn context project) with
  | true =>
    rw [if_pos hf] at hchosen
    rw [loadTable_of_chosen hchosen]
    exact (and_iff_right rfl).symm
  | false =>
    rw [if_neg (by simp [hf])] at hchosen
    rw [result_loadTable_of_error hchosen]
    exact iff_of_false (fun he => hr _ he.symm) nofun

theorem present_search (hc : tree.current.anchor = .root) (context : String) :
    Present (tree.loadTable (some context) none).result := by
  cases hs : tree.chosenFile (some context) none with
  | ok path =>
    rw [loadTable_of_chosen hs]
    exact present_tableOf hc path
  | error e =>
    rw [result_loadTable_of_error hs]
    have hfound : Present ((tree.find? (tree.contextText (some context)) defaultNames).mapError
        Error.unreported) := present_mapError _ nofun
    have hchosen : Present (tree.chosenFile (some context) none) := by
      refine hfound.bind fun found => ?_
      cases found <;> nofun
    rw [hs] at hchosen
    exact hchosen.error

end FileTree

end ImportAlias
