import Lipi.CommandLine

set_option autoImplicit false

/-! # Which files a run may look at

A run sees a tree of files that is given beforehand. This module says which places of a file system
have to be in that tree: the script, and **every place that the import of a file of the tree may
lead to**. Imports name their modules by literals, so the places can be read off the texts.
-/

namespace Lipi

/-- The specifiers of the imports of a program. -/
def Program.specifiers (p : Program) : List String :=
  p.body.filterMap fun
    | .importNames _ source _ => some source
    | _ => none

/-- The specifiers of the imports of a text; a text that is not a program has none. -/
def specifiersOf (text : String) : List String :=
  match Program.ofText text with
  | .ok program => program.specifiers
  | .error _ => []

/-- The places on the way along a route, if every part names a directory. -/
def Route.places (route : Route) : List (List String) :=
  match route.start with
  | .outside => []
  | .inside names =>
    (route.parts.foldl
      (fun (places, current) part =>
        let next := if part = ".." then current.dropLast else current ++ [part]
        (next :: places, next))
      ([names], names)).1.reverse

namespace FileTree

/-- The places that a specifier may lead to. -/
def importPlaces (t : FileTree) (base : Route) (specifier : String) : List (List String) :=
  let route := t.join base specifier
  route.places ++ (route.addExtension scriptExtension).places

/-- The places that the imports of a text may lead to. -/
def textPlaces (t : FileTree) (base : Route) (text : String) : List (List String) :=
  (specifiersOf text).flatMap (t.importPlaces base)

/-- The places that the imports of the files of the tree may lead to. -/
def modulePlaces (t : FileTree) : List (List String) :=
  t.entries.flatMap fun (names, entry) =>
    match entry with
    | .directory => []
    | .file bytes =>
      match decode bytes with
      | .ok text => t.textPlaces (t.directory names.dropLast) text
      | .error _ => []

end FileTree

/-- The places that a run with these arguments may look at, as far as the tree tells. -/
def CommandLine.places (files : FileTree) (arguments : List String) : List (List String) :=
  match request arguments with
  | .run options =>
    (options.path.map fun path => (files.route path).places).getD []
      ++ (options.source.map (files.textPlaces (files.route "."))).getD []
      ++ files.modulePlaces
  | _ => []

end Lipi
