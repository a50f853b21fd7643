import Lipi.Proofs.FileTree
import Lipi.Proofs.Machine.ImportedNames
import Lipi.Proofs.Session.Watching

set_option autoImplicit false

/-! # Modules in files

What imports do where modules are the files of a tree (`FileTree.imports_files`). **An import succeeds
in naming a module exactly if what is tried for its specifier is a file**, and imports of the same
file name the same module, however they are written and from wherever they come. So the file runs once
and they share its exports: what one import has loaded another one finds, at every machine on which
the exports are kept; and on all machines that a session comes to, they are.

What is tried is what the rule says, except in front of a directory without an extension
(`FileTree.script_beside_directory`): a script of that name is not found.
-/

namespace Lipi

open Restoration (Restores restores_within)

namespace Runner

variable {run : Runner} {t : FileTree} {root : Route} {specifier : String} {exports : Exports}
  {p : Position} {m loaded : Machine} {names : List String}

/-- An import that succeeds leaves the exports of a file behind, under the path of the file. -/
theorem file_of_loadModule (hs : ∀ s, Restores (run.execute s))
    (hloader : m.modules.loader = t.loader root)
    (hload : run.loadModule specifier p m = .ok exports loaded) :
    ∃ names, t.file? (t.candidate (t.specified root specifier m.moduleId)) = some names ∧
      loaded.modules.cached? (t.absolutePath names) = some exports := by
  obtain ⟨id, hresolve, hcached⟩ := cached_of_loadModule hs hload
  have hrestored : m.Restored loaded := (Restoration.restores_loadModule hs specifier p).of_ok hload
  rw [hrestored.loader, hrestored.moduleId, hloader, FileTree.loader_resolve] at hresolve
  obtain ⟨names, hfile, rfl⟩ := FileTree.resolveModule_eq_ok.mp hresolve
  exact ⟨names, hfile, hcached⟩

/-- Where the exports of a file are kept, an import of it runs nothing. -/
theorem loadModule_of_file (hloader : m.modules.loader = t.loader root)
    (hfile : t.file? (t.candidate (t.specified root specifier m.moduleId)) = some names)
    (hcached : m.modules.cached? (t.absolutePath names) = some exports) (run : Runner)
    (p : Position) : run.loadModule specifier p m = .ok exports m := by
  have hresolve : t.resolveModule root specifier m.moduleId = .ok (t.absolutePath names) :=
    FileTree.resolveModule_eq_ok.mpr ⟨names, hfile, rfl⟩
  rw [loadModule_eq, Eval.findModule_apply, hloader, FileTree.loader_resolve, hresolve]
  simp only [hcached]
  rfl

end Runner

namespace FileTree

/-- How specifiers name the files of a tree, with a root at which they start without an importer. -/
structure ImportsFiles (t : FileTree) (root : Route) : Prop where
  /-- Without an importer, specifiers start at the root. -/
  fromRoot : t.importBase root none = root
  /-- A file imports from the directory that it lies in. -/
  beside : t.WellNamed → ∀ route names, t.file? route = some names →
    t.importBase root (some (t.absolutePath names)) = t.directory names.dropLast
  /-- What is tried is what the rule says, unless it names a directory and has no extension. -/
  byRule : ∀ route, ¬ (route.isBare = true ∧ t.IsDirectory route) → t.candidate route = t.ruled route
  /-- If it does, the rule would add the extension of scripts, but the directory is tried, which is
  no file. -/
  atDirectory : ∀ route, route.isBare = true → t.IsDirectory route →
    t.ruled route = route.addExtension scriptExtension ∧ t.candidate route = route ∧
      t.file? route = none
  /-- A specifier names a module exactly if what is tried is a file, whose path is the identity. -/
  named : ∀ specifier importer id, t.resolveModule root specifier importer = .ok id ↔
    ∃ names, t.file? (t.candidate (t.specified root specifier importer)) = some names ∧
      id = t.absolutePath names
  /-- Every other specifier names nothing. -/
  missing : ∀ specifier importer e, t.resolveModule root specifier importer = .error e ↔
    t.file? (t.candidate (t.specified root specifier importer)) = none ∧ e = .notFound
  /-- Different files are different modules, and the text of each is found by its identity. -/
  told : t.WellNamed → ∀ route route' names names', t.file? route = some names →
    t.file? route' = some names' →
      (t.absolutePath names = t.absolutePath names' ↔ names = names') ∧
      ∃ bytes, t.entry? names = some (.file bytes) ∧
        (t.loader root).read (t.absolutePath names) = t.moduleText names bytes
  /-- What an import has loaded, every other import of the same file finds, without running
  anything. -/
  shared : ∀ n specifier p exports m loaded, m.modules.loader = t.loader root →
    (Runner.within n).loadModule specifier p m = .ok exports loaded →
      ∃ names, t.file? (t.candidate (t.specified root specifier m.moduleId)) = some names ∧
        loaded.modules.cached? (t.absolutePath names) = some exports ∧
        ∀ (run : Runner) specifier' p' m', m'.modules.loader = t.loader root →
          m'.modules.cached? (t.absolutePath names) = some exports →
          t.file? (t.candidate (t.specified root specifier' m'.moduleId)) = some names →
            run.loadModule specifier' p' m' = .ok exports m'
  /-- In a session no file is started twice, and the exports that have been kept are kept. -/
  once : ∀ limits scriptId program,
    let session : Session := ⟨limits, t.loader root, scriptId⟩
    session.Always program .startedOnce ∧
      ∀ id exports, session.Always program (.keptForever id exports)

/-- **Imports of files**: for every tree and root, a specifier names a file exactly if that is what is
tried for it, which is as the rule says but for directories; and imports of one file share one run. -/
theorem imports_files (t : FileTree) (root : Route) : t.ImportsFiles root where
  fromRoot := rfl
  beside hnamed route names hfile := by
    obtain ⟨bytes, hentry⟩ := entry?_of_file? hfile
    exact importBase_absolutePath hnamed root hentry
  byRule route h := candidate_eq_ruled h
  atDirectory route hbare hdirectory :=
    ⟨ruled_of_directory hbare hdirectory, candidate_of_directory hdirectory,
      hdirectory.file?_eq_none⟩
  named specifier importer id := resolveModule_eq_ok
  missing specifier importer e := resolveModule_eq_error
  told hnamed route route' names names' hfile hfile' := by
    obtain ⟨bytes, hentry⟩ := entry?_of_file? hfile
    obtain ⟨bytes', hentry'⟩ := entry?_of_file? hfile'
    refine ⟨⟨absolutePath_injective (hnamed.named hentry) (hnamed.named hentry'), ?_⟩, bytes, hentry,
      read_absolutePath hnamed root hentry⟩
    rintro rfl
    rfl
  shared n specifier p exports m loaded hloader hload := by
    obtain ⟨names, hfile, hcached⟩ :=
      Runner.file_of_loadModule (restores_within n).2 hloader hload
    exact ⟨names, hfile, hcached, fun run specifier' p' m' hloader' hcached' hfile' =>
      Runner.loadModule_of_file hloader' hfile' hcached' run p'⟩
  once limits scriptId program :=
    ⟨Session.always_of_sound _ program Watch.sound_startedOnce,
      fun id exports => Session.always_of_sound _ program (Watch.sound_keptForever id exports)⟩

/-- A script beside a directory of the same name. The specifier `lib` is no file, so that by the rule
it means the script; but it names nothing. -/
theorem script_beside_directory :
    let script := Entry.file "bhejo pakka x = 1".toUTF8
    let t := ((empty "").addPath "lib.desi" script).addPath "lib" .directory
    let route := t.specified (t.route ".") "lib" none
    route.isBare = true ∧ t.file? route = none ∧ t.file? (t.ruled route) = some ["lib.desi"] ∧
      t.candidate route ≠ t.ruled route ∧
      t.resolveModule (t.route ".") "lib" none = .error .notFound := by
  intro script t route
  have hruled : t.file? (t.ruled route) = some ["lib.desi"] := by decide +kernel
  have htried : t.file? (t.candidate route) = none := by decide +kernel
  refine ⟨by decide +kernel, by decide +kernel, hruled, fun heq => ?_,
    resolveModule_eq_error.mpr ⟨htried, rfl⟩⟩
  rw [heq, hruled] at htried
  cases htried

end FileTree

end Lipi
