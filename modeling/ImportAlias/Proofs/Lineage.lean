import ImportAlias.Proofs.Places
import ImportAlias.Settings.Extends
import Mathlib.Data.List.Nodup
import Mathlib.Data.List.Perm.Subperm

/-!
# The lineage of a configuration

What a configuration extends, what this extends, and so on, is unfolded into a
tree. Loading is a walk through this tree that enters a place only once: a
loaded file declares what the files that the walk has entered declare, each one
hiding those that were left before it.
-/

namespace ImportAlias

namespace Declaration

@[simp] theorem empty_overriding (d : Declaration) : empty.overriding d = d := by
  cases d
  rfl

@[simp] theorem overriding_empty (d : Declaration) : d.overriding empty = d := by
  obtain ⟨paths, baseUrl⟩ := d
  cases paths <;> cases baseUrl <;> rfl

theorem overriding_assoc (a b c : Declaration) :
    (a.overriding b).overriding c = a.overriding (b.overriding c) := by
  by_cases ha : a.paths.isNull = true
  · simp [overriding, ha, Option.or_assoc]
  · simp [overriding, ha, Option.or_assoc]

/-- Declarations one after the other, where a later one hides the keys that it sets. -/
def latest (declarations : List Declaration) : Declaration :=
  declarations.foldl (fun inherited declaration => declaration.overriding inherited) empty

theorem foldl_overriding (declarations : List Declaration) (inherited : Declaration) :
    declarations.foldl (fun inherited declaration => declaration.overriding inherited) inherited =
      (latest declarations).overriding inherited := by
  induction declarations generalizing inherited with
  | nil => simp [latest]
  | cons first others ih =>
    have hl : latest (first :: others) = (latest others).overriding first := by
      rw [latest, List.foldl_cons, ih, overriding_empty]
    rw [List.foldl_cons, ih, hl, overriding_assoc]

theorem latest_append (first second : List Declaration) :
    latest (first ++ second) = (latest second).overriding (latest first) := by
  rw [latest, List.foldl_append, foldl_overriding]
  rfl

@[simp] theorem latest_singleton (d : Declaration) : latest [d] = d :=
  d.overriding_empty

theorem latest_cons (first : Declaration) (others : List Declaration) :
    latest (first :: others) = (latest others).overriding first := by
  rw [← List.singleton_append, latest_append, latest_singleton]

end Declaration

open Declaration (latest)

/-- A file by its place, with what it declares itself and the lineages that it extends, in the
order of its entries. -/
inductive Lineage where
  | node (place : Path) (own : Declaration) (parents : List Lineage)

namespace Lineage

mutual

/-- The number of files on the longest branch. -/
def height : Lineage → Nat
  | node _ _ parents => heightAll parents + 1

def heightAll : List Lineage → Nat
  | [] => 0
  | parent :: others => max parent.height (heightAll others)

end

mutual

/-- No place comes again further down its branch, and none of those above comes at all. -/
def Acyclic (above : List Path) : Lineage → Prop
  | node place _ parents => place ∉ above ∧ AcyclicAll (place :: above) parents

def AcyclicAll (above : List Path) : List Lineage → Prop
  | [] => True
  | parent :: others => parent.Acyclic above ∧ AcyclicAll above others

end

mutual

/-- A walk that enters no place twice: the places that have been entered, and what the files
entered by it declare, in the order in which they are left. -/
def walk (seen : List Path) : Lineage → List Path × List Declaration
  | node place own parents =>
    if place ∈ seen then (seen, [])
    else
      let found := walkAll (seen ++ [place]) parents
      (found.1, found.2 ++ [own])

def walkAll (seen : List Path) : List Lineage → List Path × List Declaration
  | [] => (seen, [])
  | parent :: others =>
    let first := parent.walk seen
    let rest := walkAll first.1 others
    (rest.1, first.2 ++ rest.2)

end

end Lineage

mutual

/-- A file has a lineage when it and all that it extends can be loaded. -/
inductive Unfolds (tree : FileTree) : Path → Lineage → Prop
  | node {file : Path} {entries : Entries Value} {own : Declaration} {extended : List String}
      {parents : List Lineage} (hr : tree.readObject file = .ok entries)
      (ho : Declaration.ofEntries file entries = .ok (own, extended))
      (hp : UnfoldsAll tree file extended parents) :
    Unfolds tree file (.node (file.resolve tree.current) own parents)

/-- The entries of a file have their lineages. -/
inductive UnfoldsAll (tree : FileTree) : Path → List String → List Lineage → Prop
  | nil (file : Path) : UnfoldsAll tree file [] []
  | cons {file next : Path} {entry : String} {extended : List String} {parent : Lineage}
      {parents : List Lineage} (he : tree.extendedFile file entry = .ok next)
      (hn : Unfolds tree next parent) (hs : UnfoldsAll tree file extended parents) :
    UnfoldsAll tree file (entry :: extended) (parent :: parents)

end

namespace Load

variable {α β : Type} {load : Load α} {events later : List Event}

/-- A load that comes to a result leads from some events to others. -/
def Gives (load : Load α) (events : List Event) (a : α) (later : List Event) : Prop :=
  (load.run events).run = (.ok a, later)

theorem run_bind (load : Load α) (next : α → Load β) (events : List Event) :
    ((load >>= next).run events).run =
      match (load.run events).run with
      | (.ok a, later) => ((next a).run later).run
      | (.error e, later) => (.error e, later) := by
  change (match (load.run events).run with
    | (r, later) => ((ExceptT.bindCont next r).run later).run) = _
  rcases (load.run events).run with ⟨e | a, later⟩ <;> rfl

theorem gives_bind_iff {next : α → Load β} {b : β} {last : List Event} :
    (load >>= next).Gives events b last ↔
      ∃ a later, load.Gives events a later ∧ (next a).Gives later b last := by
  unfold Gives
  rw [run_bind]
  rcases (load.run events).run with ⟨e | a, later⟩ <;> simp

theorem Gives.bind {next : α → Load β} {a : α} {b : β} {last : List Event}
    (h : load.Gives events a later) (hn : (next a).Gives later b last) :
    (load >>= next).Gives events b last :=
  gives_bind_iff.mpr ⟨a, later, h, hn⟩

theorem gives_pure (a : α) (events : List Event) : (pure a : Load α).Gives events a events :=
  rfl

theorem gives_note (event : Event) (events : List Event) :
    (note event).Gives events () (events ++ [event]) :=
  rfl

theorem gives_ok (a : α) (events : List Event) :
    (liftM (Except.ok a : Except Error α) : Load α).Gives events a events :=
  rfl

/-- The files that some events open. -/
def opened (events : List Event) : List Path :=
  events.filterMap Event.file?

theorem gives_openedFiles (events : List Event) : openedFiles.Gives events (opened events) events :=
  rfl

end Load

namespace FileTree

variable {tree : FileTree}

theorem read_of_readObject {file : Path} {entries : Entries Value}
    (h : tree.readObject file = .ok entries) : ∃ bytes, tree.read file = .ok bytes := by
  cases hr : tree.read file with
  | ok bytes => exact ⟨bytes, rfl⟩
  | error cause =>
    rw [readObject, hr] at h
    cases h

theorem fault?_of_readObject {file : Path} {entries : Entries Value}
    (h : tree.readObject file = .ok entries) : file.fault? = none := by
  obtain ⟨bytes, hb⟩ := read_of_readObject h
  exact Path.fault?_eq_none_iff.mpr (isRepresentable_of_read hb)

theorem gives_locate {file : Path} (h : file.fault? = none) (events : List Event) :
    (liftM ((tree.locate file).mapError fun fault => Error.unreported (.notAPath fault)) :
      Load Path).Gives events (file.resolve tree.current) events := by
  rw [locate, h]
  rfl

theorem isRepresentable_of_declared {depth : Nat} {file : Path} {found : Declaration}
    {events later : List Event} (h : (tree.declared (depth + 1) file).Gives events found later) :
    file.isRepresentable = true := by
  cases hp : file.isRepresentable with
  | true => rfl
  | false =>
    obtain ⟨fault, -, hl⟩ := tree.exists_locate_eq_error hp
    rw [declared, hl] at h
    cases h

mutual

/-- Loading a file walks through its lineage. -/
theorem gives_declared {file : Path} {lineage : Lineage} (h : Unfolds tree file lineage)
    {depth : Nat} (hd : lineage.height ≤ depth) (events : List Event) :
    ∃ later, (tree.declared depth file).Gives events
        (latest (lineage.walk (Load.opened events)).2) later ∧
      Load.opened later = (lineage.walk (Load.opened events)).1 := by
  obtain ⟨hr, ho, hp⟩ := h
  rename_i entries own extended parents
  obtain ⟨depth, rfl⟩ : ∃ d, depth = d + 1 := by
    cases depth with
    | zero => simp [Lineage.height] at hd
    | succ depth => exact ⟨depth, rfl⟩
  have hfile := fault?_of_readObject hr
  rw [declared, Lineage.walk]
  by_cases hs : file.resolve tree.current ∈ Load.opened events
  · refine ⟨events ++ [.passedOver (file.resolve tree.current)], ?_, ?_⟩
    · refine (gives_locate hfile events).bind ((Load.gives_openedFiles events).bind ?_)
      rw [if_pos (by simpa using hs), if_pos hs]
      exact (Load.gives_note _ events).bind (Load.gives_pure _ _)
    · rw [if_pos hs]
      simp [Load.opened, Event.file?]
  · have hd : Lineage.heightAll parents ≤ depth := by simpa [Lineage.height] using hd
    have hopened : Load.opened (events ++ [.opened (file.resolve tree.current)]) =
        Load.opened events ++ [file.resolve tree.current] := by
      simp [Load.opened, Event.file?]
    obtain ⟨later, hg, hl⟩ := gives_declaredAll hp hd .empty
      (events ++ [.opened (file.resolve tree.current)])
    rw [hopened] at hg hl
    refine ⟨later, ?_, ?_⟩
    · refine (gives_locate hfile events).bind ((Load.gives_openedFiles events).bind ?_)
      rw [if_neg (by simpa using hs), if_neg hs]
      refine (Load.gives_note _ events).bind ?_
      rw [hr]
      refine (Load.gives_ok _ _).bind ?_
      rw [ho]
      refine (Load.gives_ok _ _).bind ?_
      refine hg.bind ?_
      rw [Declaration.latest_append, Declaration.latest_singleton, Declaration.overriding_empty]
      exact Load.gives_pure _ _
    · rw [if_neg hs]
      exact hl

theorem gives_declaredAll {file : Path} {extended : List String} {parents : List Lineage}
    (h : UnfoldsAll tree file extended parents) {depth : Nat}
    (hd : Lineage.heightAll parents ≤ depth) (inherited : Declaration) (events : List Event) :
    ∃ later, (extended.foldlM (fun inherited entry => do
        let parent ← tree.extendedFile file entry
        return (← tree.declared depth parent).overriding inherited) inherited : Load _).Gives events
        ((latest (Lineage.walkAll (Load.opened events) parents).2).overriding inherited) later ∧
      Load.opened later = (Lineage.walkAll (Load.opened events) parents).1 := by
  cases h with
  | nil => exact ⟨events, Load.gives_pure _ _, rfl⟩
  | cons he hn hs =>
    rename_i next entry extended parent parents
    obtain ⟨hfirst, hothers⟩ := Nat.max_le.mp hd
    obtain ⟨middle, hg, hm⟩ := gives_declared hn hfirst events
    obtain ⟨later, hgs, hl⟩ := gives_declaredAll hs hothers
      ((latest (parent.walk (Load.opened events)).2).overriding inherited) middle
    rw [hm] at hgs hl
    refine ⟨later, ?_, hl⟩
    have hentry : (liftM (tree.extendedFile file entry) >>= fun parent =>
        tree.declared depth parent >>= fun found =>
          pure (found.overriding inherited) : Load Declaration).Gives events
        ((latest (parent.walk (Load.opened events)).2).overriding inherited) middle := by
      rw [he]
      exact (Load.gives_ok _ _).bind (hg.bind (Load.gives_pure _ _))
    rw [List.foldlM_cons, Lineage.walkAll, Declaration.latest_append, Declaration.overriding_assoc]
    exact hentry.bind hgs

end

/-- A place below the root that holds a file. -/
def Holds (tree : FileTree) (place : Path) : Prop :=
  place.anchor = .root ∧ ∃ content, tree.node? place.names = some (.file content)

theorem holds_resolve (hc : tree.current.anchor = .root) {file : Path} {entries : Entries Value}
    (h : tree.readObject file = .ok entries) : tree.Holds (file.resolve tree.current) := by
  obtain ⟨bytes, hb⟩ := read_of_readObject h
  have ha : tree.current.isAbsolute = true := by simp [Path.isAbsolute, hc]
  exact ⟨Path.resolve_anchor hc file, bytes, node?_resolve_of_lookup ha (read_eq_ok_iff.mp hb)⟩

theorem Holds.isRepresentable {place : Path} (h : tree.Holds place) :
    place.isRepresentable = true := by
  obtain ⟨-, content, hnode⟩ := h
  exact all_isRepresentable_of_node? hnode

theorem length_le_files {places : List Path} (hn : places.Nodup)
    (hp : ∀ place ∈ places, tree.Holds place) : places.length ≤ tree.files.length := by
  have hnames : (places.map Path.names).Nodup := by
    refine List.Nodup.map_on ?_ hn
    intro a ha b hb he
    have hanchor := (hp a ha).1.trans (hp b hb).1.symm
    cases a
    cases b
    simp_all
  have hsub : places.map Path.names ⊆ tree.files.map (·.1) := by
    intro names hm
    obtain ⟨place, hplace, rfl⟩ := List.mem_map.mp hm
    obtain ⟨-, content, hnode⟩ := hp place hplace
    exact List.mem_map_of_mem (mem_files_of_node? hnode)
  simpa using (hnames.subperm hsub).length_le

mutual

/-- A branch without repetition is no longer than the tree has files. -/
theorem height_le_files (hc : tree.current.anchor = .root) {file : Path} {lineage : Lineage}
    (h : Unfolds tree file lineage) {above : List Path} (ha : lineage.Acyclic above)
    (hn : above.Nodup) (hp : ∀ place ∈ above, tree.Holds place) :
    above.length + lineage.height ≤ tree.files.length := by
  obtain ⟨hr, -, hs⟩ := h
  obtain ⟨hplace, hall⟩ := ha
  have hn' := List.nodup_cons.mpr ⟨hplace, hn⟩
  have hp' := List.forall_mem_cons.mpr ⟨holds_resolve hc hr, hp⟩
  have hall := heightAll_le_files hc hs hall hn' hp'
  rw [List.length_cons] at hall
  rw [Lineage.height]
  omega

theorem heightAll_le_files (hc : tree.current.anchor = .root) {file : Path}
    {extended : List String} {parents : List Lineage} (h : UnfoldsAll tree file extended parents)
    {above : List Path} (ha : Lineage.AcyclicAll above parents) (hn : above.Nodup)
    (hp : ∀ place ∈ above, tree.Holds place) :
    above.length + Lineage.heightAll parents ≤ tree.files.length := by
  cases h with
  | nil => exact length_le_files hn hp
  | cons he hnext hs =>
    obtain ⟨hfirst, hothers⟩ := ha
    have hf := height_le_files hc hnext hfirst hn hp
    have ho := heightAll_le_files hc hs hothers hn hp
    rw [Lineage.heightAll]
    omega

end

end FileTree

end ImportAlias
