set_option autoImplicit false

/-! # File trees

The part of a file system that a run can see: files with their bytes, and directories. Finding a
path walks the tree part by part: **every part but the last has to name a directory that exists**,
also in front of `..`. What lies outside the tree is a directory of which nothing is known, so that
nothing is found in it. Symbolic links and permissions are left out: every name leads to an entry of
its own, and every file in the tree can be read.
-/

namespace Lipi

/-- What stands under a name in a directory. -/
inductive Entry where
  | file (bytes : ByteArray)
  | directory
deriving Inhabited

/-- A tree of files. -/
structure FileTree where
  /-- The absolute path of the directory that is the root of the tree; empty for the root of the
  file system. -/
  location : String
  /-- The directory from which relative paths start. -/
  workingDirectory : List String
  /-- Files and directories by the names that lead to them, the latest first. Directories that
  hold something need no entry of their own. -/
  entries : List (List String × Entry)
deriving Inhabited

/-- Why a path cannot be read. -/
inductive PathError where
  | notFound
  | notADirectory
  | isADirectory
  | nameTooLong
  | notText
deriving Repr, DecidableEq, Inhabited

/-- The wording of a path error. -/
def PathError.message : PathError → String
  | notFound => "No such file or directory (os error 2)"
  | notADirectory => "Not a directory (os error 20)"
  | isADirectory => "Is a directory (os error 21)"
  | nameTooLong => "File name too long (os error 36)"
  | notText => "stream did not contain valid UTF-8"

/-- How many bytes a name in a directory may take. -/
def maxNameSize : Nat := 255

/-- How many bytes a path may take. -/
def maxPathSize : Nat := 4095

/-- A place that a path leads to. -/
inductive Place where
  /-- Inside the tree. -/
  | inside (names : List String)
  /-- A directory above the tree. -/
  | outside
deriving Repr, DecidableEq, Inhabited

/-- A path as a way to go. -/
structure Route where
  /-- Where the way starts. -/
  start : Place
  /-- How many bytes it takes to name the start; none if the path is relative. -/
  startSize : Nat
  /-- The way from the start, as it is written. -/
  path : String
deriving Repr, DecidableEq, Inhabited

/-! ## Names and routes -/

namespace Route

/-- What stands between the slashes of a path. -/
@[irreducible] def pieces (path : String) : List String :=
  -- irreducible, as comparing two trees would otherwise unfold the characters of every path
  (path.toList.splitOn '/').map String.ofList

/-- The parts of a path. Empty parts and single points stay where they are. -/
def partsOf (path : String) : List String :=
  (pieces path).filter fun part => part != "" && part != "."

/-- Whether a file name has an extension: a point that is not its first character. -/
def hasExtension (name : String) : Bool :=
  match name.toList with
  | [] => false
  | _ :: rest => rest.contains '.'

/-- The parts of a route. -/
def parts (route : Route) : List String :=
  partsOf route.path

/-- Whether the end of a route has to be a directory, as a slash behind it says. -/
def toDirectory (route : Route) : Bool :=
  match (pieces route.path).getLast? with
  | some last => last == "" || last == "."
  | none => true

/-- How many bytes the whole path takes. -/
def size (route : Route) : Nat :=
  route.startSize + route.path.utf8ByteSize

/-- The route that goes on along a relative path. -/
def append (route : Route) (path : String) : Route :=
  if route.size = 0 then { route with path := path }
  else if route.path.toList.getLast? = some '/' then { route with path := route.path ++ path }
  else { route with path := route.path ++ "/" ++ path }

/-- The name at the end of a route; a route that ends in `..` has none. -/
def fileName? (route : Route) : Option String :=
  route.parts.getLast?.filter (· != "..")

/-- A path, read from its end, without the slashes and single points behind its last part. -/
def dropTrail : List Char → List Char
  | '/' :: cs => dropTrail cs
  | '.' :: '/' :: cs => dropTrail cs
  | cs => cs

/-- The path of the directory that a path lies in, as it is written. The empty path and the root of
the file system lie in none. -/
def parentPath? (path : String) : Option String :=
  match dropTrail path.toList.reverse with
  | [] => none
  | cs =>
    let rest := cs.dropWhile (· != '/')
    let front := dropTrail rest
    some (if front.isEmpty && !rest.isEmpty then "/" else String.ofList front.reverse)

/-- The route with an extension added to the name at its end. What stands behind that name is
dropped. -/
def addExtension (route : Route) (extension : String) : Route :=
  match route.fileName? with
  | some _ =>
    let path := String.ofList (dropTrail route.path.toList.reverse).reverse
    { route with path := path ++ "." ++ extension }
  | none => route

end Route

namespace FileTree

/-- A tree without files, as seen from its root. -/
def empty (location : String) : FileTree := ⟨location, [], []⟩

/-- Adds a file or directory. -/
def add (t : FileTree) (names : List String) (entry : Entry) : FileTree :=
  { t with entries := (names, entry) :: t.entries }

/-- Adds a file or directory at the end of the given parts of a path, seen from the directory
`names`, and the directories on the way. -/
def addAlong (t : FileTree) (names : List String) (entry : Entry) : List String → FileTree
  | [] => t
  | [part] => t.add (names ++ [part]) entry
  | part :: parts =>
    if part = ".." then t.addAlong names.dropLast entry parts
    else (t.add (names ++ [part]) .directory).addAlong (names ++ [part]) entry parts

/-- Adds a file or directory at a path that starts at the root of the tree. -/
def addPath (t : FileTree) (path : String) (entry : Entry) : FileTree :=
  t.addAlong [] entry (Route.partsOf path)

/-- What stands at a place inside the tree. -/
def entry? (t : FileTree) (names : List String) : Option Entry :=
  if names.isEmpty then some .directory
  else
    match t.entries.find? (·.1 == names) with
    | some (_, entry) => some entry
    | none => if t.entries.any (names.isPrefixOf ·.1) then some .directory else none

/-- The absolute path of a place inside the tree. -/
def absolutePath (t : FileTree) (names : List String) : String :=
  t.location ++ "/" ++ "/".intercalate names

/-- Where absolute paths start. -/
def top (t : FileTree) : Place :=
  if t.location.isEmpty then .inside [] else .outside

/-! ## Walking -/

/-- Goes one part further. -/
def step (t : FileTree) (place : Place) (part : String) : Except PathError Place :=
  match place with
  | .outside =>
    if part = ".." then .ok .outside
    else if maxNameSize < part.utf8ByteSize then .error .nameTooLong
    else .error .notFound
  | .inside names =>
    match t.entry? names with
    | none => .error .notFound
    | some (.file _) => .error .notADirectory
    | some .directory =>
      if part = ".." then
        if names.isEmpty then .ok t.top else .ok (.inside names.dropLast)
      else if maxNameSize < part.utf8ByteSize then .error .nameTooLong
      else if (t.entry? (names ++ [part])).isSome then .ok (.inside (names ++ [part]))
      else .error .notFound

/-- The place at the end of a route, and what stands there. -/
def find (t : FileTree) (route : Route) : Except PathError (Place × Entry) := do
  if maxPathSize < route.size then throw .nameTooLong
  let place ← route.parts.foldlM t.step route.start
  match place with
  | .outside => return (.outside, .directory)
  | .inside names =>
    match t.entry? names with
    | none => throw .notFound
    | some .directory => return (place, .directory)
    | some (.file bytes) =>
      if route.toDirectory then throw .notADirectory else return (place, .file bytes)

/-- Whether something stands at the end of a route. -/
def hasEntry (t : FileTree) (route : Route) : Bool :=
  (t.find route).isOk

/-- The place of the file at the end of a route, if there is a file. -/
def file? (t : FileTree) (route : Route) : Option (List String) :=
  match t.find route with
  | .ok (.inside names, .file _) => some names
  | _ => none

/-- The text of bytes. -/
def decode (bytes : ByteArray) : Except PathError String :=
  match String.fromUTF8? bytes with
  | some text => .ok text
  | none => .error .notText

/-- The text of the file at the end of a route. -/
def readText (t : FileTree) (route : Route) : Except PathError String := do
  match ← t.find route with
  | (_, .file bytes) => decode bytes
  | (_, .directory) => throw .isADirectory

/-! ## Starting points -/

/-- The absolute route to a directory of the tree. -/
def directory (t : FileTree) (names : List String) : Route :=
  ⟨.inside [], t.location.utf8ByteSize, "/" ++ "/".intercalate names⟩

/-- The route of a path that is followed from the end of another route. An absolute path starts
anew. -/
def join (t : FileTree) (route : Route) (path : String) : Route :=
  if path.toList.head? = some '/' then ⟨t.top, 0, path⟩ else route.append path

/-- The route of a path that starts at the working directory. -/
def route (t : FileTree) (path : String) : Route :=
  t.join ⟨.inside t.workingDirectory, 0, ""⟩ path

end FileTree

end Lipi
