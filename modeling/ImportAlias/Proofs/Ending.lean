import ImportAlias.Proofs.Agenda
import ImportAlias.Settings.Load
import Mathlib

/-!
# Loads end

Files may extend each other in circles, and a path may grow with every entry that
is followed, so neither the files nor the paths left to do count down. What does
is the number of places that have not been opened: opening a file takes one of
them away, and between two openings the agenda shrinks. Hence a load ends, the
depth that its recursion is given does not matter once it exceeds the number of
files, and no place is opened twice.
-/

namespace ImportAlias

open Load (opened)

namespace Task

/-- The steps that a task takes, as far as no new file is opened. An entry first becomes a file. -/
def weight : Task → ℕ
  | file _ => 1
  | entry _ _ => 2

end Task

namespace Agenda

variable {tree : FileTree} {agenda next : Agenda}

/-- The places that can still be opened, and then the steps that are left. -/
def rank (tree : FileTree) (agenda : Agenda) : ℕ ×ₗ ℕ :=
  toLex (tree.files.length - agenda.opened.length, (agenda.tasks.map Task.weight).sum)

/-- Every step lowers the rank: it opens a new place, or leaves the places and does a task. -/
theorem Advances.rank_lt (hc : tree.current.anchor = .root) (h : agenda.Advances tree next)
    (hs : Sound tree agenda.opened) : next.rank tree < agenda.rank tree := by
  obtain ⟨⟨hnodup, hholds⟩, -⟩ := h.sound hc hs
  have hle := FileTree.length_le_files hnodup hholds
  rw [rank, rank, Prod.Lex.toLex_lt_toLex]
  cases h with
  | passes hseen =>
    right
    simp [Task.weight]
  | follows he =>
    right
    simp [Task.weight]
  | opens hn hr ho =>
    left
    simp only [List.length_append, List.length_singleton] at hle ⊢
    omega

/-- An agenda of different places that hold files cannot be worked on for ever. -/
theorem acc_of_sound (hc : tree.current.anchor = .root) (hs : Sound tree agenda.opened) :
    Acc (fun next agenda : Agenda => agenda.Advances tree next) agenda := by
  induction hr : agenda.rank tree using WellFoundedLT.induction generalizing agenda with
  | ind rank ih =>
    apply Acc.intro
    intro next ha
    exact ih (next.rank tree) (hr ▸ ha.rank_lt hc hs) (ha.sound hc hs).1 rfl

end Agenda

namespace Load

variable {α β : Type} {load load' : Load α} {next next' : α → Load β} {events : List Event}

theorem run_bind_congr (h : (load.run events).run = (load'.run events).run)
    (hn : ∀ a later, load.Gives events a later →
      ((next a).run later).run = ((next' a).run later).run) :
    ((load >>= next).run events).run = ((load' >>= next').run events).run := by
  rw [run_bind, run_bind, ← h]
  rcases hr : (load.run events).run with ⟨e | a, later⟩
  · rfl
  · exact hn a later hr

theorem run_error_bind (e : Error) (next : α → Load β) (events : List Event) :
    (((liftM (Except.error e : Except Error α) : Load α) >>= next).run events).run =
      (.error e, events) :=
  rfl

end Load

namespace FileTree

variable {tree : FileTree} {depth : ℕ}

/-- What a load gives leaves different places that hold files. -/
theorem sound_of_gives_declared (hc : tree.current.anchor = .root) {file : Path}
    {events later : List Event} {declaration : Declaration}
    (hs : Agenda.Sound tree (opened events))
    (hd : tree.files.length + 1 ≤ depth + (opened events).length)
    (h : (tree.declared depth file).Gives events declaration later) :
    Agenda.Sound tree (opened later) ∧ (opened events).length ≤ (opened later).length := by
  obtain ⟨found, later', hg, hr⟩ | ⟨e, ⟨later', hstops⟩, -⟩ :=
    performs_declared hc file events [] hs hd
  · obtain ⟨-, rfl⟩ : found = declaration ∧ later' = later := by
      rw [Load.Gives] at h hg
      simpa [h, eq_comm] using hg
    exact hr.sound hc hs
  · rw [Load.Gives] at h
    simp [h] at hstops

/-- What an entry of a file declares, over what the entries in front of it do. -/
def followed (tree : FileTree) (depth : ℕ) (file : Path) (inherited : Declaration)
    (entry : String) : Load Declaration := do
  let parent ← tree.extendedFile file entry
  return (← tree.declared depth parent).overriding inherited

theorem run_entries_congr (hc : tree.current.anchor = .root) {depth' : ℕ}
    (hfile : ∀ (file : Path) (events : List Event), Agenda.Sound tree (opened events) →
      tree.files.length + 1 ≤ depth + (opened events).length →
      ((tree.declared depth' file).run events).run = ((tree.declared depth file).run events).run)
    (file : Path) (extended : List String) (inherited : Declaration) (events : List Event)
    (hs : Agenda.Sound tree (opened events))
    (hd : tree.files.length + 1 ≤ depth + (opened events).length) :
    ((extended.foldlM (tree.followed depth' file) inherited).run events).run =
      ((extended.foldlM (tree.followed depth file) inherited).run events).run := by
  induction extended generalizing inherited events with
  | nil => rfl
  | cons entry extended ih =>
    simp only [List.foldlM_cons, followed, bind_assoc, pure_bind]
    cases he : tree.extendedFile file entry with
    | error e => rw [Load.run_error_bind, Load.run_error_bind]
    | ok found =>
      refine Load.run_bind_congr rfl ?_
      rintro parent later ⟨⟩
      refine Load.run_bind_congr (hfile found events hs hd) ?_
      intro declaration later hg
      have hrun := hfile found events hs hd
      obtain ⟨hs', hl⟩ := sound_of_gives_declared hc hs hd (hrun.symm.trans hg)
      exact ih (declaration.overriding inherited) later hs' (by omega)

/-- One more level of recursion changes nothing where the depth suffices. -/
theorem run_declared_succ (hc : tree.current.anchor = .root) (file : Path) (events : List Event)
    (hs : Agenda.Sound tree (opened events))
    (hd : tree.files.length + 1 ≤ depth + (opened events).length) :
    ((tree.declared (depth + 1) file).run events).run =
      ((tree.declared depth file).run events).run := by
  induction depth generalizing file events with
  | zero =>
    have hle := length_le_files hs.1 hs.2
    omega
  | succ depth ih =>
    rw [declared, declared]
    rcases hp : file.fault? with - | fault
    swap
    · simp only [locate, hp, Except.mapError, Load.run_error_bind]
    simp only [locate, hp, Except.mapError]
    refine Load.run_bind_congr rfl ?_
    rintro place later ⟨⟩
    refine Load.run_bind_congr rfl ?_
    rintro files later ⟨⟩
    by_cases hseen : file.resolve tree.current ∈ opened events
    · rw [if_pos (by simpa [opened] using hseen), if_pos (by simpa [opened] using hseen)]
    rw [if_neg (by simpa [opened] using hseen), if_neg (by simpa [opened] using hseen)]
    refine Load.run_bind_congr rfl ?_
    rintro - later ⟨⟩
    cases hr : tree.readObject file with
    | error e => rw [Load.run_error_bind, Load.run_error_bind]
    | ok entries =>
      refine Load.run_bind_congr rfl ?_
      rintro _ later ⟨⟩
      cases ho : Declaration.ofEntries file entries with
      | error e => rw [Load.run_error_bind, Load.run_error_bind]
      | ok found =>
        obtain ⟨own, extended⟩ := found
        have hopens : Agenda.Advances tree ⟨opened events, [.file file]⟩ _ := .opens hp hseen hr ho
        obtain ⟨hs', -⟩ := hopens.sound hc hs
        rw [← Load.opened_concat] at hs'
        refine Load.run_bind_congr rfl ?_
        rintro _ later ⟨⟩
        refine Load.run_bind_congr ?_ fun _ _ _ => rfl
        refine run_entries_congr hc ih file extended .empty _ hs' ?_
        rw [Load.opened_concat, List.length_append, List.length_singleton]
        omega

/-- The depth of the recursion does not matter: beyond the number of files all depths give the same
run. -/
theorem start_declared_eq (hc : tree.current.anchor = .root) (file : Path)
    (hd : tree.files.length < depth) :
    (tree.declared depth file).start = (tree.declared (tree.files.length + 1) file).start := by
  induction depth, hd using Nat.le_induction with
  | base => rfl
  | succ depth hd ih =>
    exact (run_declared_succ hc file [] Agenda.sound_nil (Nat.le_add_right_of_le hd)).trans ih

end FileTree

namespace Load

variable {α β : Type} {load : Load α} {next : α → Load β}

/-- A load that opens no place twice, and none that was opened before it. -/
def OpensOnce (load : Load α) : Prop :=
  ∀ events, (opened events).Nodup → (opened (load.run events).run.2).Nodup

theorem opensOnce_pure (a : α) : (pure a : Load α).OpensOnce :=
  fun _ hn => hn

theorem opensOnce_liftM (result : Except Error α) : (liftM result : Load α).OpensOnce := by
  intro events hn
  cases result <;> exact hn

theorem opensOnce_note {event : Event} (he : event.file? = none) : (note event).OpensOnce := by
  intro events hn
  change (opened (events ++ [event])).Nodup
  simpa [opened, he] using hn

theorem OpensOnce.bind (h : load.OpensOnce) (hn : ∀ a, (next a).OpensOnce) :
    (load >>= next).OpensOnce := by
  intro events hevents
  have hlater := h events hevents
  rw [run_bind]
  rcases hr : (load.run events).run with ⟨e | a, later⟩
  · rwa [hr] at hlater
  · rw [hr] at hlater
    exact hn a later hlater

theorem opensOnce_foldlM {γ : Type} {step : β → γ → Load β} (h : ∀ b c, (step b c).OpensOnce)
    (items : List γ) (init : β) : (items.foldlM step init).OpensOnce := by
  induction items generalizing init with
  | nil => exact opensOnce_pure init
  | cons item items ih =>
    rw [List.foldlM_cons]
    exact (h init item).bind ih

end Load

namespace FileTree

variable {tree : FileTree}

theorem opensOnce_declared (depth : ℕ) (file : Path) : (tree.declared depth file).OpensOnce := by
  induction depth generalizing file with
  | zero => exact Load.opensOnce_pure _
  | succ depth ih =>
    rw [declared]
    refine (Load.opensOnce_liftM _).bind fun place => ?_
    intro events hn
    rw [Load.run_bind]
    change (opened ((if (opened events).contains place then _ else _ :
      Load Declaration).run events).run.2).Nodup
    by_cases hseen : place ∈ opened events
    · rw [if_pos (by simpa using hseen)]
      exact (Load.opensOnce_note rfl).bind (fun _ => Load.opensOnce_pure _) events hn
    rw [if_neg (by simpa using hseen), Load.run_bind]
    have hopened : (opened (events ++ [.opened place])).Nodup := by
      rw [Load.opened_concat]
      exact hn.append (List.nodup_singleton _) (by simpa using hseen)
    refine Load.OpensOnce.bind (Load.opensOnce_liftM _) (fun entries => ?_) _ hopened
    refine (Load.opensOnce_liftM _).bind fun found => ?_
    refine Load.OpensOnce.bind ?_ fun _ => Load.opensOnce_pure _
    apply Load.opensOnce_foldlM
    intro inherited entry
    refine (Load.opensOnce_liftM _).bind fun parent => ?_
    exact (ih parent).bind fun _ => Load.opensOnce_pure _

theorem opensOnce_loadJson (path : Path) : (tree.loadJson path).OpensOnce := by
  refine (opensOnce_declared _ _).bind fun found => ?_
  refine (Load.opensOnce_liftM _).bind fun paths => ?_
  exact (Load.opensOnce_note rfl).bind fun _ => Load.opensOnce_pure _

theorem start_loadJson {path : Path} {found : Declaration} {later : List Event}
    (h : (tree.declared (tree.files.length + 1) (path.resolve tree.current)).Gives [] found later) :
    (tree.loadJson path).start =
      match Settings.pathsOf (path.resolve tree.current) found.paths with
      | .error cause => (.error (.config cause), later)
      | .ok paths =>
        (.ok ⟨(path.resolve tree.current).toString,
            (found.baseUrl.map fun base => Value.string base.toString).getD .null, paths⟩,
          later ++ [.loaded paths.length (path.resolve tree.current) found.baseUrl]) := by
  rw [Load.start, loadJson, Load.run_bind, h]
  dsimp only
  cases Settings.pathsOf (path.resolve tree.current) found.paths <;> rfl

/-- Following what files extend always ends, whatever extends what. The agenda of a file cannot be
worked on for ever; it comes to its end or to a task that fails, and so does the load, which has
then opened the places of the agenda or ends in the error of the task. The recursion is not cut off:
any depth beyond the number of files gives the same run. No place is opened twice. -/
theorem loadJson_ends (hc : tree.current.anchor = .root) (path : Path) :
    Acc (fun next agenda : Agenda => agenda.Advances tree next)
      (.ofFile (path.resolve tree.current)) ∧
    (∃ last, (Agenda.ofFile (path.resolve tree.current)).Reaches tree last ∧
      (last.tasks = [] ∧ opened (tree.loadJson path).start.2 = last.opened ∨
        ∃ e, last.Fails tree e ∧ (tree.loadJson path).result = .error e)) ∧
    (∀ depth, tree.files.length < depth →
      (tree.declared depth (path.resolve tree.current)).start =
        (tree.declared (tree.files.length + 1) (path.resolve tree.current)).start) ∧
    (opened (tree.loadJson path).start.2).Nodup := by
  refine ⟨Agenda.acc_of_sound hc Agenda.sound_nil, ?_, fun depth => start_declared_eq hc _,
    opensOnce_loadJson path [] List.nodup_nil⟩
  obtain ⟨found, later, hg, hr⟩ | ⟨e, hstops, failed, hr, hf⟩ :=
    performs_declared hc (path.resolve tree.current) [] [] Agenda.sound_nil (Nat.le_add_right _ _)
  · refine ⟨_, hr, .inl ⟨rfl, ?_⟩⟩
    rw [start_loadJson hg]
    cases Settings.pathsOf (path.resolve tree.current) found.paths with
    | error cause => rfl
    | ok paths => simp [opened, Event.file?]
  · obtain ⟨later, hl⟩ := hstops.bind _
    exact ⟨failed, hr, .inr ⟨e, hf, congrArg Prod.fst hl⟩⟩

end FileTree

namespace Circle

def bottomText : String :=
  "\x7b\"extends\": \"./lib/base\", " ++
    "\"compilerOptions\": \x7b\"baseUrl\": \"src\", \"paths\": null\x7d\x7d"

def baseText : String :=
  "\x7b\"extends\": [\"../tsconfig.json\"], " ++
    "\"compilerOptions\": \x7b\"baseUrl\": \".\", \"paths\": \x7b\"a\": \"x\"\x7d\x7d\x7d"

/-- Two files that extend each other, each from its own directory. -/
def tree : FileTree where
  files := [
    (["p", "tsconfig.json"], bottomText.toUTF8.toList),
    (["p", "lib", "base.json"], baseText.toUTF8.toList)]
  directories := [["p"], ["p", "lib"]]
  current := ⟨.root, ["p"]⟩

def bottom : Path := ⟨.root, ["p", "tsconfig.json"]⟩

theorem loadJson_ends_circle :
    tree.current.anchor = .root ∧
    Acc (fun next agenda : Agenda => agenda.Advances tree next)
      (.ofFile (bottom.resolve tree.current)) ∧
    (opened (tree.loadJson bottom).start.2).Nodup := by
  have hroot : tree.current.anchor = .root := rfl
  obtain ⟨hacc, -, -, hnodup⟩ := FileTree.loadJson_ends hroot bottom
  exact ⟨hroot, hacc, hnodup⟩

end Circle

end ImportAlias
