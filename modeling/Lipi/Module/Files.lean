import Lipi.FileTree
import Lipi.Module.Memory

set_option autoImplicit false

/-! # Modules in files

Specifiers are paths. They start at the directory of the importing module, or at a given root if the
importer has none. **A path without an extension that leads nowhere gets the extension of
scripts**, and the identity of a module is the absolute path of its file, so that every file is one
module however it is named.
-/

namespace Lipi.FileTree

/-- The directory of the file that is a module. -/
def directoryOf? (t : FileTree) (id : ModuleId) : Option (List String) :=
  (t.entries.find? (t.absolutePath ·.1 == id)).map (·.1.dropLast)

/-- Where the specifiers of an importer start. An importer that is no file of the tree lies where its
identity says. -/
def importBase (t : FileTree) (root : Route) (importer : Option ModuleId) : Route :=
  match importer with
  | none => root
  | some id =>
    match t.directoryOf? id with
    | some names => t.directory names
    | none => ((Route.parentPath? id).map t.route).getD root

/-- The route that is tried for a specifier. -/
def candidate (t : FileTree) (route : Route) : Route :=
  let bare := !(route.fileName?.any Route.hasExtension)
  if bare && !t.hasEntry route then route.addExtension scriptExtension else route

/-- The module that a specifier names. -/
def resolveModule (t : FileTree) (root : Route) (specifier : String) (importer : Option ModuleId) :
    Except LoadError ModuleId :=
  match t.file? (t.candidate (t.join (t.importBase root importer) specifier)) with
  | some names => .ok (t.absolutePath names)
  | none => .error .notFound

/-- The text of a file, as the source of modules reports it. -/
def moduleText (t : FileTree) (names : List String) (bytes : ByteArray) :
    Except LoadError String :=
  match decode bytes with
  | .ok text => .ok text
  | .error e => .error (.unreadable (t.absolutePath names) e.message)

/-- The module that an entry of the tree is, if it is a file. -/
def moduleOf? (t : FileTree) : List String × Entry → Option (ModuleId × Except LoadError String)
  | (names, .file bytes) => some (t.absolutePath names, t.moduleText names bytes)
  | (_, .directory) => none

/-- All files as modules. -/
def moduleCatalog (t : FileTree) : Dict (Except LoadError String) :=
  ⟨t.entries.filterMap t.moduleOf?⟩

/-- The files as a source of modules, with the root at which specifiers start without an
importer. -/
def loader (t : FileTree) (root : Route) : Loader where
  resolve := t.resolveModule root
  catalog := t.moduleCatalog

/-- The identity of the script at the end of a route: the absolute path of its file, or the path
as it is written where there is none. -/
def scriptId (t : FileTree) (route : Route) : ModuleId :=
  match t.find route with
  | .ok (.inside names, _) => t.absolutePath names
  | _ => route.path

end Lipi.FileTree
