import Lipi.Dict
import Lipi.Value

set_option autoImplicit false

/-! # Modules

A module is a program that others import names from. A `Loader` says which module a specifier
names and what its text is; **it can read finitely many modules, which it lists**. `Modules` is what
a run remembers: the exports of the modules that have been run, and the modules that are being
loaded.
-/

namespace Lipi

/-- The identity of a module. -/
abbrev ModuleId := String

/-- The values that a module exports, by name. -/
abbrev Exports := Dict Value

/-! ## Loaders -/

/-- Why a module cannot be loaded. -/
inductive LoadError where
  | notFound
  | unreadable (path reason : String)
deriving Repr, DecidableEq, Inhabited

/-- The wording of a loading error. -/
def LoadError.message : LoadError → String
  | notFound => "module not found"
  | unreadable path reason => "cannot read " ++ path ++ ": " ++ reason

/-- Where modules come from. There are finitely many of them: with an endless supply a chain of
imports, each module importing a new one, need not end. A run that ends has read finitely many, and
depends on no others. -/
structure Loader where
  /-- The module that a specifier names, given the module that imports it. -/
  resolve : String → Option ModuleId → Except LoadError ModuleId
  /-- The text of every module that there is, or why it cannot be read. -/
  catalog : Dict (Except LoadError String)

/-- The text of a module. -/
def Loader.read (loader : Loader) (id : ModuleId) : Except LoadError String :=
  (loader.catalog.get? id).getD (.error .notFound)

/-- The texts of all modules that can be read. -/
def Loader.texts (loader : Loader) : List String :=
  loader.catalog.entries.filterMap fun (_, text) => text.toOption

/-! ## Modules of a run -/

/-- What a run knows about its modules. -/
structure Modules where
  loader : Loader
  /-- The exports of the modules that have been run. -/
  cache : Dict Exports
  /-- The modules that are being loaded, outermost first. -/
  loading : List ModuleId

namespace Modules

/-- No module has been run or is being loaded. -/
def fresh (loader : Loader) : Modules :=
  ⟨loader, .empty, []⟩

/-- The exports of a module that has been run. -/
def cached? (m : Modules) (id : ModuleId) : Option Exports :=
  m.cache.get? id

/-- Whether a module is being loaded. -/
def isLoading (m : Modules) (id : ModuleId) : Bool :=
  m.loading.contains id

/-- Marks a module as being loaded. -/
def enter (m : Modules) (id : ModuleId) : Modules :=
  { m with loading := m.loading ++ [id] }

/-- Removes the mark. -/
def leave (m : Modules) (id : ModuleId) : Modules :=
  { m with loading := m.loading.filter (· != id) }

/-- Keeps the exports of a module that has been run. -/
def store (m : Modules) (id : ModuleId) (exports : Exports) : Modules :=
  { m with cache := m.cache.insert id exports }

end Modules

end Lipi
