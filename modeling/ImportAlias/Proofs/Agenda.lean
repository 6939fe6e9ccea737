import ImportAlias.Proofs.Lineage
import Mathlib.Logic.Relation

/-!
# The agenda of a load

Loading a configuration is working off an agenda: the next file is opened, unless
its place has been opened before, and its entries go in front of what was left to
do. A load fails where its agenda comes to a task that cannot be done, and with
the error of that task. The depth that the recursion is bounded by never shows,
for the places on an agenda are all different and hold files.
-/

namespace ImportAlias

open Relation (ReflTransGen)

/-- A file to open, or an entry of a file to follow. -/
inductive Task where
  | file (path : Path)
  | entry (file : Path) (entry : String)

/-- The places that have been opened, and what is left to do, the next task first. -/
structure Agenda where
  opened : List Path
  tasks : List Task

namespace Agenda

variable {tree : FileTree} {agenda next other : Agenda}

/-- An agenda that has nothing but a file. -/
def ofFile (file : Path) : Agenda := ⟨[], [.file file]⟩

/-- One task is done. -/
inductive Advances (tree : FileTree) : Agenda → Agenda → Prop
  | passes {file : Path} {opened : List Path} {tasks : List Task} (hp : file.fault? = none)
      (hs : file.resolve tree.current ∈ opened) :
    Advances tree ⟨opened, .file file :: tasks⟩ ⟨opened, tasks⟩
  | opens {file : Path} {opened : List Path} {tasks : List Task} {entries : Entries Value}
      {own : Declaration} {extended : List String} (hp : file.fault? = none)
      (hs : file.resolve tree.current ∉ opened)
      (hr : tree.readObject file = .ok entries)
      (ho : Declaration.ofEntries file entries = .ok (own, extended)) :
    Advances tree ⟨opened, .file file :: tasks⟩
      ⟨opened ++ [file.resolve tree.current], extended.map (.entry file) ++ tasks⟩
  | follows {file found : Path} {entry : String} {opened : List Path} {tasks : List Task}
      (he : tree.extendedFile file entry = .ok found) :
    Advances tree ⟨opened, .entry file entry :: tasks⟩ ⟨opened, .file found :: tasks⟩

/-- The next task cannot be done. -/
inductive Fails (tree : FileTree) : Agenda → Error → Prop
  | locating {file : Path} {opened : List Path} {tasks : List Task} {fault : Text.PathFault}
      (hp : file.fault? = some fault) :
    Fails tree ⟨opened, .file file :: tasks⟩ (.unreported (.notAPath fault))
  | reading {file : Path} {opened : List Path} {tasks : List Task} {e : Error}
      (hp : file.fault? = none) (hs : file.resolve tree.current ∉ opened)
      (hr : tree.readObject file = .error e) :
    Fails tree ⟨opened, .file file :: tasks⟩ e
  | declaring {file : Path} {opened : List Path} {tasks : List Task} {entries : Entries Value}
      {e : Error} (hp : file.fault? = none) (hs : file.resolve tree.current ∉ opened)
      (hr : tree.readObject file = .ok entries)
      (ho : Declaration.ofEntries file entries = .error e) :
    Fails tree ⟨opened, .file file :: tasks⟩ e
  | following {file : Path} {entry : String} {opened : List Path} {tasks : List Task} {e : Error}
      (he : tree.extendedFile file entry = .error e) :
    Fails tree ⟨opened, .entry file entry :: tasks⟩ e

/-- Tasks are done until another agenda is left. -/
def Reaches (tree : FileTree) : Agenda → Agenda → Prop :=
  ReflTransGen (Advances tree)

theorem Advances.unique (h : agenda.Advances tree next) (h' : agenda.Advances tree other) :
    next = other := by
  cases h <;> cases h' <;> simp_all

theorem Fails.unique {e e' : Error} (h : agenda.Fails tree e) (h' : agenda.Fails tree e') :
    e = e' := by
  cases h <;> cases h' <;> simp_all

theorem Fails.not_advances {e : Error} (h : agenda.Fails tree e) (next : Agenda) :
    ¬ agenda.Advances tree next := by
  intro h'
  cases h <;> cases h' <;> simp_all

theorem not_advances_of_done (opened : List Path) (next : Agenda) :
    ¬ (Agenda.mk opened []).Advances tree next := by
  intro h
  cases h

/-- Where the work ends does not depend on how it is done. -/
theorem Reaches.unique (h : agenda.Reaches tree next) (h' : agenda.Reaches tree other)
    (hn : ∀ later, ¬ next.Advances tree later) (ho : ∀ later, ¬ other.Advances tree later) :
    next = other := by
  have hru : Relator.RightUnique (Advances tree) := fun _ _ _ => Advances.unique
  rcases ReflTransGen.total_of_right_unique hru h h' with hr | hr
  · cases hr.cases_head with
    | inl he => exact he
    | inr he => exact absurd he.choose_spec.1 (hn _)
  · cases hr.cases_head with
    | inl he => exact he.symm
    | inr he => exact absurd he.choose_spec.1 (ho _)

/-- Every place has been opened once, and holds a file. -/
def Sound (tree : FileTree) (opened : List Path) : Prop :=
  opened.Nodup ∧ ∀ place ∈ opened, tree.Holds place

theorem sound_nil : Sound tree [] :=
  ⟨List.nodup_nil, List.forall_mem_nil _⟩

theorem Advances.sound (hc : tree.current.anchor = .root) (h : agenda.Advances tree next)
    (hs : Sound tree agenda.opened) :
    Sound tree next.opened ∧ agenda.opened.length ≤ next.opened.length := by
  cases h with
  | passes => exact ⟨hs, Nat.le_refl _⟩
  | follows => exact ⟨hs, Nat.le_refl _⟩
  | opens _ hn hr =>
    obtain ⟨hnodup, hholds⟩ := hs
    refine ⟨⟨hnodup.append (List.nodup_singleton _) (by simpa using hn), ?_⟩, by simp⟩
    exact List.forall_mem_append.mpr
      ⟨hholds, List.forall_mem_singleton.mpr (FileTree.holds_resolve hc hr)⟩

theorem Reaches.sound (hc : tree.current.anchor = .root) (h : agenda.Reaches tree next)
    (hs : Sound tree agenda.opened) :
    Sound tree next.opened ∧ agenda.opened.length ≤ next.opened.length := by
  induction h with
  | refl => exact ⟨hs, Nat.le_refl _⟩
  | tail _ hstep ih =>
    obtain ⟨hsound, hlength⟩ := hstep.sound hc ih.1
    exact ⟨hsound, Nat.le_trans ih.2 hlength⟩

end Agenda

open Agenda (Reaches Sound)

namespace Load

variable {α β : Type} {load : Load α} {next : α → Load β} {events later : List Event} {e : Error}

/-- A load that comes to an error. -/
def Stops (load : Load α) (events : List Event) (e : Error) : Prop :=
  ∃ later, (load.run events).run = (.error e, later)

theorem stops_bind_iff :
    (load >>= next).Stops events e ↔
      load.Stops events e ∨ ∃ a later, load.Gives events a later ∧ (next a).Stops later e := by
  unfold Stops Gives
  rw [run_bind]
  rcases (load.run events).run with ⟨e' | a, later⟩
  · simp
  · constructor
    · exact fun h => .inr ⟨a, later, rfl, h⟩
    · rintro (⟨_, h⟩ | ⟨a', later', h, hn⟩)
      · simp at h
      · obtain ⟨rfl, rfl⟩ : a = a' ∧ later = later' := by simpa using h
        exact hn

theorem Stops.bind (h : load.Stops events e) (next : α → Load β) :
    (load >>= next).Stops events e :=
  stops_bind_iff.mpr (.inl h)

theorem Gives.bind_stops {a : α} (h : load.Gives events a later) (hn : (next a).Stops later e) :
    (load >>= next).Stops events e :=
  stops_bind_iff.mpr (.inr ⟨a, later, h, hn⟩)

theorem stops_error (e : Error) (events : List Event) :
    (liftM (Except.error e : Except Error α) : Load α).Stops events e :=
  ⟨events, rfl⟩

theorem opened_concat (events : List Event) (place : Path) :
    opened (events ++ [.opened place]) = opened events ++ [place] := by
  simp [opened, Event.file?]

theorem opened_passedOver (events : List Event) (place : Path) :
    opened (events ++ [.passedOver place]) = opened events := by
  simp [opened, Event.file?]

end Load

open Load (opened)

/-- A load does the tasks of an agenda in front of the last ones: it comes to a result when these
are left, or stops where a task fails. -/
def Load.Performs {α : Type} (load : Load α) (tree : FileTree) (events : List Event)
    (agenda : Agenda) (last : List Task) : Prop :=
  (∃ a later, load.Gives events a later ∧ agenda.Reaches tree ⟨opened later, last⟩) ∨
    ∃ e, load.Stops events e ∧ ∃ failed, agenda.Reaches tree failed ∧ failed.Fails tree e

namespace Load.Performs

variable {α β : Type} {tree : FileTree} {load : Load α} {next : α → Load β} {events : List Event}
  {agenda later : Agenda} {tasks last : List Task}

theorem of_gives {a : α} (h : load.Gives events a events) :
    load.Performs tree events ⟨opened events, last⟩ last :=
  .inl ⟨a, events, h, .refl⟩

theorem of_fails {e : Error} (h : load.Stops events e) (hf : agenda.Fails tree e) :
    load.Performs tree events agenda last :=
  .inr ⟨e, h, agenda, .refl, hf⟩

theorem of_advances (ha : agenda.Advances tree later)
    (h : load.Performs tree events later last) : load.Performs tree events agenda last := by
  obtain ⟨a, events', hg, hr⟩ | ⟨e, hs, failed, hr, hf⟩ := h
  · exact .inl ⟨a, events', hg, hr.head ha⟩
  · exact .inr ⟨e, hs, failed, hr.head ha, hf⟩

theorem bind (h : load.Performs tree events agenda tasks)
    (hn : ∀ a events', agenda.Reaches tree ⟨opened events', tasks⟩ →
      (next a).Performs tree events' ⟨opened events', tasks⟩ last) :
    (load >>= next).Performs tree events agenda last := by
  obtain ⟨a, events', hg, hr⟩ | ⟨e, hs, failed, hr, hf⟩ := h
  · obtain ⟨b, events'', hg', hr'⟩ | ⟨e, hs, failed, hr', hf⟩ := hn a events' hr
    · exact .inl ⟨b, events'', hg.bind hg', hr.trans hr'⟩
    · exact .inr ⟨e, hg.bind_stops hs, failed, hr.trans hr', hf⟩
  · exact .inr ⟨e, hs.bind next, failed, hr, hf⟩

theorem of_gives_bind {a : α} {events' : List Event} (hg : load.Gives events a events')
    (h : (next a).Performs tree events' agenda last) :
    (load >>= next).Performs tree events agenda last := by
  obtain ⟨b, events'', hg', hr'⟩ | ⟨e, hs, failed, hr', hf⟩ := h
  · exact .inl ⟨b, events'', hg.bind hg', hr'⟩
  · exact .inr ⟨e, hg.bind_stops hs, failed, hr', hf⟩

end Load.Performs

namespace FileTree

variable {tree : FileTree} {depth : Nat}

theorem performs_entries (hc : tree.current.anchor = .root)
    (hfile : ∀ (file : Path) (events : List Event) (last : List Task),
      Sound tree (opened events) → tree.files.length + 1 ≤ depth + (opened events).length →
      (tree.declared depth file).Performs tree events ⟨opened events, .file file :: last⟩ last)
    (file : Path) (extended : List String) (inherited : Declaration) (events : List Event)
    (last : List Task) (hs : Sound tree (opened events))
    (hd : tree.files.length + 1 ≤ depth + (opened events).length) :
    (extended.foldlM (fun inherited entry => do
        let parent ← tree.extendedFile file entry
        return (← tree.declared depth parent).overriding inherited) inherited : Load _).Performs
      tree events ⟨opened events, extended.map (.entry file) ++ last⟩ last := by
  induction extended generalizing inherited events with
  | nil => exact .of_gives (Load.gives_pure _ _)
  | cons entry extended ih =>
    rw [List.foldlM_cons, List.map_cons, List.cons_append]
    cases he : tree.extendedFile file entry with
    | error e =>
      exact .of_fails (((Load.stops_error e events).bind _).bind _) (.following he)
    | ok found =>
      have hentry : (liftM (Except.ok found : Except Error Path) >>= fun parent => do
          return (← tree.declared depth parent).overriding inherited : Load _).Performs tree events
          ⟨opened events, .entry file entry :: (extended.map (.entry file) ++ last)⟩
          (extended.map (.entry file) ++ last) := by
        refine .of_gives_bind (Load.gives_ok _ _) (.of_advances (.follows he) ?_)
        refine (hfile found events _ hs hd).bind fun declaration events' _ => ?_
        exact .of_gives (Load.gives_pure _ _)
      refine hentry.bind fun inherited events' hr => ?_
      obtain ⟨hs', hl⟩ := hr.sound hc hs
      exact ih inherited events' hs' (by simp only at hl; omega)

/-- Loading a file opens it and then follows its entries. -/
theorem performs_declared (hc : tree.current.anchor = .root) (file : Path) (events : List Event)
    (last : List Task) (hs : Sound tree (opened events))
    (hd : tree.files.length + 1 ≤ depth + (opened events).length) :
    (tree.declared depth file).Performs tree events ⟨opened events, .file file :: last⟩ last := by
  -- each level of the recursion opens one more file, and there are no more places than files
  induction depth generalizing file events last with
  | zero =>
    have hle := length_le_files hs.1 hs.2
    omega
  | succ depth ih =>
    rw [declared]
    rcases hp : file.fault? with - | fault
    swap
    · rw [locate, hp]
      exact .of_fails ((Load.stops_error _ events).bind _) (.locating hp)
    refine .of_gives_bind (gives_locate hp events) ?_
    refine .of_gives_bind (Load.gives_openedFiles events) ?_
    by_cases hseen : file.resolve tree.current ∈ opened events
    · rw [if_pos (by simpa using hseen)]
      refine .of_advances (.passes hp hseen) ?_
      refine .of_gives_bind (Load.gives_note _ events) ?_
      rw [← Load.opened_passedOver events (file.resolve tree.current)]
      exact .of_gives (Load.gives_pure _ _)
    rw [if_neg (by simpa using hseen)]
    refine .of_gives_bind (Load.gives_note _ events) ?_
    cases hr : tree.readObject file with
    | error e => exact .of_fails ((Load.stops_error e _).bind _) (.reading hp hseen hr)
    | ok entries =>
      refine .of_gives_bind (Load.gives_ok _ _) ?_
      cases ho : Declaration.ofEntries file entries with
      | error e => exact .of_fails ((Load.stops_error e _).bind _) (.declaring hp hseen hr ho)
      | ok found =>
        obtain ⟨own, extended⟩ := found
        have hopens : Agenda.Advances tree ⟨opened events, .file file :: last⟩ _ :=
          .opens hp hseen hr ho
        obtain ⟨hs', -⟩ := hopens.sound hc hs
        refine .of_gives_bind (Load.gives_ok _ _) (.of_advances hopens ?_)
        rw [← Load.opened_concat] at hs' ⊢
        refine Load.Performs.bind (performs_entries hc ih file extended .empty _ last hs' ?_)
          fun inherited events' _ => .of_gives (Load.gives_pure _ _)
        rw [Load.opened_concat, List.length_append, List.length_singleton]
        omega

/-- A file cannot be loaded exactly if its agenda comes to a task that fails, and the error is that
of the task. -/
theorem declared_stops_iff (hc : tree.current.anchor = .root) (file : Path) (e : Error) :
    (tree.declared (tree.files.length + 1) file).Stops [] e ↔
      ∃ agenda, (Agenda.ofFile file).Reaches tree agenda ∧ agenda.Fails tree e := by
  obtain ⟨d, later, hg, hr⟩ | ⟨e', hstops, failed, hr, hf⟩ :=
    performs_declared hc file [] [] Agenda.sound_nil (Nat.le_add_right _ _)
  · constructor
    · rintro ⟨_, hstops⟩
      rw [Load.Gives] at hg
      simp [hg] at hstops
    · rintro ⟨agenda, hr', hf⟩
      have he := hr.unique hr' (Agenda.not_advances_of_done _) hf.not_advances
      rw [← he] at hf
      cases hf
  · constructor
    · rintro ⟨_, h⟩
      obtain ⟨_, h'⟩ := hstops
      rw [h] at h'
      obtain rfl : e = e' := by simpa using congrArg Prod.fst h'
      exact ⟨failed, hr, hf⟩
    · rintro ⟨agenda, hr', hf'⟩
      have he := hr.unique hr' hf.not_advances hf'.not_advances
      rw [← he] at hf'
      rw [hf'.unique hf]
      exact hstops

end FileTree

end ImportAlias
