import Lipi.Module

set_option autoImplicit false

/-! # Modules in memory

A set of named texts that serves as a source of modules. Names are global: it does not matter which
module imports. **One leading `./` of a name is ignored**, and the extension `.desi` may be left out
of a specifier.
-/

namespace Lipi

/-- The extension of scripts. -/
def scriptExtension : String := "desi"

/-- Named texts. -/
structure MemoryModules where
  texts : Dict String
deriving Inhabited

namespace MemoryModules

/-- No texts. -/
def empty : MemoryModules := ⟨.empty⟩

/-- A name without one leading `./`. -/
def normalize (name : String) : String :=
  match name.toList with
  | '.' :: '/' :: rest => String.ofList rest
  | _ => name

/-- Adds a text under a name, in place of an earlier one of that name. -/
def insert (m : MemoryModules) (name text : String) : MemoryModules :=
  ⟨m.texts.insert (normalize name) text⟩

/-- The texts of a list of pairs, inserted in order. -/
def ofList (pairs : List (String × String)) : MemoryModules :=
  pairs.foldl (fun m (name, text) => m.insert name text) empty

/-- The name of the text that a specifier means. -/
def resolve (m : MemoryModules) (specifier : String) : Except LoadError ModuleId :=
  let name := normalize specifier
  let withExtension := name ++ "." ++ scriptExtension
  if m.texts.contains name then .ok name
  else if m.texts.contains withExtension then .ok withExtension
  else .error .notFound

/-- The texts as a source of modules. -/
def loader (m : MemoryModules) : Loader where
  resolve specifier _ := m.resolve specifier
  catalog := ⟨m.texts.entries.map fun (name, text) => (name, .ok text)⟩

end MemoryModules

end Lipi
