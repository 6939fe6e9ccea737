import ImportAlias.Proofs.BaseDirectory
import ImportAlias.Proofs.Chain
import ImportAlias.Proofs.PackageSearch

/-!
# Where a base URL comes from

A base URL is read from the directory of the file that sets it, and comes out as a
canonical text. However many files extend each other on the way there, and however
their paths are spelled, the table reads this text from the directory of the first
file, which leaves it as it is. Hence settings and table agree on the directory that
relative targets start from.
-/

namespace ImportAlias

open ImportAlias.Path (Canonical IsName ofString)
open Relation (ReflTransGen)

namespace Load

variable {α β γ : Type} {load : Load α} {next : α → Load β}

/-- Whatever a load gives is such. -/
def Ensures (load : Load α) (post : α → Prop) : Prop :=
  ∀ events a later, load.Gives events a later → post a

theorem ensures_true (load : Load α) : load.Ensures fun _ => True :=
  fun _ _ _ _ => trivial

theorem ensures_pure {post : α → Prop} {a : α} (h : post a) : (pure a : Load α).Ensures post := by
  rintro events b later ⟨⟩
  exact h

theorem ensures_liftM (result : Except Error α) :
    (liftM result : Load α).Ensures fun a => result = .ok a :=
  fun _ _ _ h => (gives_liftM.mp h).1

theorem Ensures.bind {middle : α → Prop} {post : β → Prop} (h : load.Ensures middle)
    (hn : ∀ a, middle a → (next a).Ensures post) : (load >>= next).Ensures post := by
  intro events b last hg
  obtain ⟨a, later, ha, hb⟩ := gives_bind_iff.mp hg
  exact hn a (h events a later ha) later b last hb

theorem ensures_foldlM {step : β → γ → Load β} {post : β → Prop} {items : List γ} {init : β}
    (h : ∀ b, post b → ∀ item ∈ items, (step b item).Ensures post) (hi : post init) :
    (items.foldlM step init).Ensures post := by
  induction items generalizing init with
  | nil => exact ensures_pure hi
  | cons item items ih =>
    rw [List.foldlM_cons]
    refine (h init hi item List.mem_cons_self).bind fun b hb => ?_
    exact ih (fun c hc other ho => h c hc other (List.mem_cons_of_mem _ ho)) hb

end Load

namespace FileTree

variable {tree : FileTree} {file next : Path} {entries : Entries Value} {own found : Declaration}
  {extended : List String}

/-- One of the entries that a file extends leads to another file. -/
def Extends (tree : FileTree) (file next : Path) : Prop :=
  ∃ entries extended entry, tree.readObject file = .ok entries ∧
    Declaration.extendedBy file entries = .ok extended ∧ entry ∈ extended ∧
    tree.extendedFile file entry = .ok next

/-- The base URL that a file sets itself, as it is written there. -/
def SetsBaseUrl (tree : FileTree) (file : Path) (text : String) : Prop :=
  ∃ entries options, tree.readObject file = .ok entries ∧ SetsOptions entries options ∧
    Value.under options "baseUrl" = .string text

/-- A base URL that is set by a file which `file` leads to, and read from the directory of that
one. -/
def LeadsToBaseUrl (tree : FileTree) (file base : Path) : Prop :=
  ∃ origin text, ReflTransGen tree.Extends file origin ∧ tree.SetsBaseUrl origin text ∧
    base = (origin.parent / ofString text).normalize

/-- A declaration with no other base URL than one that a file leads to. -/
def Accounts (tree : FileTree) (file : Path) (found : Declaration) : Prop :=
  ∀ base, found.baseUrl = some base → tree.LeadsToBaseUrl file base

theorem accounts_empty (file : Path) : tree.Accounts file .empty :=
  nofun

theorem Accounts.overriding {inherited : Declaration} (h : tree.Accounts file found)
    (hi : tree.Accounts file inherited) : tree.Accounts file (found.overriding inherited) := by
  intro base hb
  obtain hb | ⟨-, hb⟩ := Option.or_eq_some_iff.mp hb
  · exact h base hb
  · exact hi base hb

theorem Accounts.of_extends (he : tree.Extends file next) (h : tree.Accounts next found) :
    tree.Accounts file found := by
  intro base hb
  obtain ⟨origin, text, hleads, hsets⟩ := h base hb
  exact ⟨origin, text, hleads.head he, hsets⟩

theorem ofEntries_eq_ok (h : Declaration.ofEntries file entries = .ok (own, extended)) :
    Declaration.extendedBy file entries = .ok extended ∧
      ∃ options, SetsOptions entries options ∧
        Declaration.baseUrlOf file options = .ok own.baseUrl := by
  simp only [Declaration.ofEntries, bind_eq_ok_iff, mapError_eq_ok_iff, pure, Except.pure,
    Except.ok.injEq, Prod.mk.injEq] at h
  obtain ⟨options, ho, baseUrl, hb, found, he, rfl, rfl⟩ := h
  exact ⟨he, options, (Declaration.optionsOf_eq_ok_iff entries options).mp ho, hb⟩

theorem accounts_own (hr : tree.readObject file = .ok entries)
    (ho : Declaration.ofEntries file entries = .ok (own, extended)) : tree.Accounts file own := by
  intro base hb
  obtain ⟨-, options, hoptions, hbase⟩ := ofEntries_eq_ok ho
  rw [hb] at hbase
  unfold Declaration.baseUrlOf at hbase
  split at hbase
  · cases hbase
  · rename_i text htext
    have hread := Option.some.inj (Except.ok.inj hbase)
    exact ⟨file, text, .refl, ⟨entries, options, hr, hoptions, htext⟩, hread.symm⟩
  · cases hbase

/-- The base URL that a load gives has been set by a file on the way. -/
theorem ensures_declared (depth : ℕ) (file : Path) :
    (tree.declared depth file).Ensures (tree.Accounts file) := by
  induction depth generalizing file with
  | zero => exact Load.ensures_pure (accounts_empty file)
  | succ depth ih =>
    rw [declared]
    refine (Load.ensures_true _).bind fun place _ => ?_
    refine (Load.ensures_true _).bind fun opened _ => ?_
    split
    · refine (Load.ensures_true _).bind fun _ _ => ?_
      exact Load.ensures_pure (accounts_empty file)
    refine (Load.ensures_true _).bind fun _ _ => ?_
    refine (Load.ensures_liftM _).bind fun entries hr => ?_
    refine (Load.ensures_liftM _).bind fun (own, extended) ho => ?_
    have hentries : (extended.foldlM (tree.followed depth file) .empty).Ensures
        (tree.Accounts file) := by
      refine Load.ensures_foldlM (fun inherited hinherited entry hentry => ?_) (accounts_empty file)
      refine (Load.ensures_liftM _).bind fun next hnext => ?_
      refine (ih next).bind fun found hfound => ?_
      have hextends : tree.Extends file next :=
        ⟨entries, extended, entry, hr, (ofEntries_eq_ok ho).1, hentry, hnext⟩
      exact Load.ensures_pure ((hfound.of_extends hextends).overriding hinherited)
    refine hentries.bind fun inherited hinherited => ?_
    exact Load.ensures_pure ((accounts_own hr ho).overriding hinherited)

theorem written_withJson? {path inner : Path} (hw : path.Written)
    (h : withJson? path = some inner) : inner.Written := by
  unfold withJson? at h
  split at h
  · rwa [← Option.some.inj h]
  obtain ⟨name, hname, rfl⟩ := Option.map_eq_some_iff.mp h
  obtain ⟨-, -, hslash⟩ := hw.names (List.mem_of_getLast? hname)
  have hlength : 5 ≤ (name ++ ".json").length := by
    rw [String.length_append]
    exact Nat.le_add_left 5 name.length
  refine Path.written_of_names fun other ho => ?_
  obtain ho | ho := List.mem_append.mp ho
  · exact hw.names (List.dropLast_subset _ ho)
  · obtain rfl := List.mem_singleton.mp ho
    have hne : ∀ text : String, text.length < 5 → name ++ ".json" ≠ text := by
      intro text ht he
      rw [he] at hlength
      omega
    exact ⟨hne "" (by decide), hne "." (by decide), by simpa using hslash⟩

theorem written_of_completed {named found : Path} (hn : named.Written)
    (h : tree.completed named = .ok found) : found.Written := by
  unfold completed at h
  split at h
  · rwa [← Except.ok.inj h]
  · split at h
    · rename_i extended hj
      rw [← Except.ok.inj h]
      exact written_withJson? hn hj
    · cases h

theorem written_of_package {entry : String} {start found : Path} (hs : start.Written)
    (h : tree.package entry start = .ok found) : found.Written := by
  unfold package at h
  split at h
  · rename_i named hnamed
    obtain ⟨directory, hd, hin⟩ := List.exists_of_findSome?_eq_some hnamed
    have habove := ((Path.mem_selfAndAncestors_iff _ _).mp hd).2
    have hdirectory : directory.Written :=
      Path.written_of_names fun name hname => hs.names (habove.subset hname)
    have hcandidate : (directory / ofString "node_modules" / ofString entry).Written :=
      (hdirectory.div (Path.written_ofString _)).div (Path.written_ofString _)
    rw [← Except.ok.inj h]
    simp only [packageIn?] at hin
    split at hin
    · rw [← Option.some.inj hin]
      exact hcandidate.div (Path.written_ofString _)
    · split at hin
      · rwa [← Option.some.inj hin]
      · cases hin
  · cases h

theorem written_of_extendedFile {entry : String} (hf : file.Written)
    (h : tree.extendedFile file entry = .ok next) : next.Written := by
  have hparent : file.parent.Written := hf.parent
  rw [extendedFile_eq] at h
  split at h
  · exact written_of_completed (Path.written_ofString entry) h
  · split at h
    · exact written_of_completed (hparent.div (Path.written_ofString entry)) h
    · obtain ⟨named, hnamed, h⟩ := (bind_eq_ok_iff _ _ _).mp h
      exact written_of_completed (written_of_package hparent hnamed) h

theorem isAbsolute_and_written {origin : Path} (h : ReflTransGen tree.Extends file origin)
    (ha : file.isAbsolute = true) (hw : file.Written) :
    origin.isAbsolute = true ∧ origin.Written := by
  induction h with
  | refl => exact ⟨ha, hw⟩
  | tail _ he ih =>
    obtain ⟨entries, extended, entry, -, -, -, hnext⟩ := he
    exact ⟨isAbsolute_of_extendedFile ih.1 hnext, written_of_extendedFile ih.2 hnext⟩

/-- A base URL that an absolute file leads to is written as a canonical text. -/
theorem LeadsToBaseUrl.canonical {base : Path} (h : tree.LeadsToBaseUrl file base)
    (ha : file.isAbsolute = true) (hw : file.Written) : Canonical base.toString := by
  obtain ⟨origin, text, hleads, -, rfl⟩ := h
  obtain ⟨habsolute, hwritten⟩ := isAbsolute_and_written hleads ha hw
  have hparent : origin.parent.isAbsolute = true := habsolute
  exact Path.canonical_normalize (hwritten.parent.div (Path.written_ofString text))
    (Path.isAbsolute_div hparent)

variable {path : Path} {settings : Settings}

/-- Settings are made of what their file declares. -/
theorem exists_declared_of_loadJson (h : (tree.loadJson path).result = .ok settings) :
    ∃ found, path.isRepresentable = true ∧ tree.Accounts (path.resolve tree.current) found ∧
      settings.file = (path.resolve tree.current).toString ∧
      settings.baseUrl =
        (found.baseUrl.map fun base => Value.string base.toString).getD .null := by
  rcases hd : ((tree.declared (tree.files.length + 1) (path.resolve tree.current)).run []).run with
    ⟨e | found, later⟩
  · rw [Load.result, Load.start, loadJson, Load.run_bind, hd] at h
    cases h
  · refine ⟨found, Path.isRepresentable_of_resolve (isRepresentable_of_declared hd),
      ensures_declared _ _ _ _ _ hd, ?_⟩
    rw [Load.result, start_loadJson hd] at h
    cases hp : Settings.pathsOf (path.resolve tree.current) found.paths with
    | error cause =>
      rw [hp] at h
      cases h
    | ok paths =>
      rw [hp] at h
      obtain rfl := Except.ok.inj h
      exact ⟨rfl, rfl⟩

/-- Settings and table agree on the base directory. The file of loaded settings is written as a
canonical text, and so is their base URL, which is that of some file on the way, read from the
directory of that file. A table that is compiled from them anywhere starts from this base URL as it
is, or, where there is none, from the directory of the first file; the table can fail for its
aliases only. -/
theorem baseDirectory_of_loadJson (hc : tree.current.anchor = .root) (hw : tree.current.Written)
    {path : String} (h : (tree.loadJson (ofString path)).result = .ok settings) :
    settings.file = ((ofString path).resolve tree.current).toString ∧ Canonical settings.file ∧
    (settings.baseUrl = .null ∨
      ∃ base : Path, settings.baseUrl = .string base.toString ∧ base.toString ≠ "" ∧
        Canonical base.toString ∧
        tree.LeadsToBaseUrl ((ofString path).resolve tree.current) base) ∧
    ∀ current : Path,
      (∀ table, Table.ofSettings current settings = .ok table →
        (settings.baseUrl = .null → table.baseDirectory.toString = settings.directory) ∧
        ∀ text, settings.baseUrl = .string text → table.baseDirectory.toString = text) ∧
      ((∃ table, Table.ofSettings current settings = .ok table) ↔
        ∃ mappings, Mapping.ofPaths settings.paths = .ok mappings) := by
  obtain ⟨found, hpath, haccounts, hfile, hurl⟩ := exists_declared_of_loadJson h
  obtain ⟨ha, hn⟩ := Path.canonical_resolve hc hw (Path.written_ofString path) hpath
  have hcanonical : Canonical settings.file := hfile ▸ .of_path ha hn
  have hbase : settings.baseUrl = .null ∨
      ∃ base : Path, settings.baseUrl = .string base.toString ∧ base.toString ≠ "" ∧
        Canonical base.toString ∧
        tree.LeadsToBaseUrl ((ofString path).resolve tree.current) base := by
    cases hb : found.baseUrl with
    | none =>
      rw [hb] at hurl
      exact .inl hurl
    | some base =>
      rw [hb] at hurl
      have hleads := haccounts base hb
      have hwritten := hleads.canonical ha (Path.written_of_isName hn)
      exact .inr ⟨base, hurl, hwritten.ne_empty, hwritten, hleads⟩
  obtain ⟨start, hstart, hnull, htext⟩ := Settings.exists_baseDirectory_of_canonical hcanonical
    (hbase.imp_right fun ⟨base, hb, _, hwritten, _⟩ => ⟨base.toString, hb, hwritten⟩)
  refine ⟨hfile, hcanonical, hbase, fun current => ⟨fun table ht => ?_, ?_, ?_⟩⟩
  · obtain ⟨mappings, base, -, hb, rfl⟩ := Table.exists_of_ofSettings ht
    obtain rfl := Except.ok.inj ((hstart current).symm.trans hb)
    exact ⟨hnull, htext⟩
  · rintro ⟨table, ht⟩
    obtain ⟨mappings, base, hm, -, -⟩ := Table.exists_of_ofSettings ht
    exact ⟨mappings, hm⟩
  · rintro ⟨mappings, hm⟩
    exact ⟨_, Table.ofSettings_of_compiled hm (hstart current)⟩

end FileTree

namespace Inheriting

def startText : String :=
  "\x7b\"extends\": \"../lib/base\"\x7d"

def baseText : String :=
  "\x7b\"compilerOptions\": \x7b\"baseUrl\": \"../src/\"\x7d\x7d"

def tree : FileTree where
  files := [
    (["p", "app", "tsconfig.json"], startText.toUTF8.toList),
    (["p", "lib", "base.json"], baseText.toUTF8.toList)]
  directories := [["p"], ["p", "app"], ["p", "lib"]]
  current := ⟨.root, ["p", "app"]⟩

def start : Path := ⟨.root, ["p", "app", "tsconfig.json"]⟩

/-- The file that `start` extends, as its path is spelled on the way. -/
def base : Path := ⟨.root, ["p", "app", "..", "lib", "base.json"]⟩

def baseOptions : Entries Value := [("baseUrl", .string "../src/")]

def settings : Settings :=
  ⟨"/p/app/tsconfig.json", .string "/p/src", []⟩

set_option maxRecDepth 4000 in
theorem configures_start : Configures tree start [] (some "../lib/base") := by
  have hr : tree.readObject start = .ok [("extends", .string "../lib/base")] :=
    FileTree.readObject_eq_ok_iff.mpr
      ⟨startText.toUTF8.toList, rfl, startText.toList, by cbv, by cbv⟩
  exact ⟨⟨_, hr, .inr ⟨rfl, rfl⟩, .inl rfl⟩, .inl rfl⟩

set_option maxRecDepth 4000 in
theorem configures_base : Configures tree base baseOptions none := by
  have hr : tree.readObject base = .ok [("compilerOptions", .object baseOptions)] :=
    FileTree.readObject_eq_ok_iff.mpr ⟨baseText.toUTF8.toList, rfl, baseText.toList, by cbv, by cbv⟩
  exact ⟨⟨_, hr, .inl rfl, .inl rfl⟩, .inr ⟨"../src/", rfl⟩⟩

theorem chain : Chain tree [] start [(start, []), (base, baseOptions)] := by
  refine .links (by decide) configures_start rfl ?_
  exact .ends (by decide) configures_base

theorem loadJson_eq : (tree.loadJson (ofString "tsconfig.json")).result = .ok settings := by
  have hplace : (ofString "tsconfig.json").resolve tree.current = start := by decide
  have hnone : [] = Load.opened [] := rfl
  have hdepth : 2 ≤ tree.files.length + 1 := by decide
  obtain ⟨later, hg⟩ := Chain.gives_declared rfl chain hnone Agenda.sound_nil hdepth
  rw [← hplace] at hg
  rw [Load.result, FileTree.start_loadJson hg]
  rfl

/-- The base URL is read from the directory of the second file, and stays there when the table reads
it from the directory of the first. -/
theorem baseDirectory_of_loadJson_inherited :
    tree.current.anchor = .root ∧ tree.current.Written ∧
    (tree.loadJson (ofString "tsconfig.json")).result = .ok settings ∧
    ∃ table, Table.ofSettings ⟨.root, ["w"]⟩ settings = .ok table ∧
      table.baseDirectory.toString = "/p/src" := by
  have hroot : tree.current.anchor = .root := rfl
  have hwritten : tree.current.Written := ⟨"/p/app", by decide⟩
  obtain ⟨-, -, -, htables⟩ := FileTree.baseDirectory_of_loadJson hroot hwritten loadJson_eq
  obtain ⟨hagrees, hbuilds⟩ := htables ⟨.root, ["w"]⟩
  obtain ⟨table, ht⟩ := hbuilds.mpr ⟨[], rfl⟩
  exact ⟨hroot, hwritten, loadJson_eq, table, ht, (hagrees table ht).2 "/p/src" rfl⟩

end Inheriting

end ImportAlias
