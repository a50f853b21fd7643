import Lipi.Heap
import Lipi.RuntimeError

set_option autoImplicit false

/-! # Scopes

Names are looked up from a scope outward. **A name is read and assigned in the nearest scope that
binds it, and declared in the scope itself.** A scope is always made inside an older one, so going
outward ends.
-/

namespace Lipi.Heap

/-- The nearest scope, from `s` outward, that binds a name. -/
def binder? (h : Heap) (s : ScopeRef) (name : String) : Option ScopeRef :=
  match h.scope? s with
  | none => none
  | some scope =>
    if scope.bindings.contains name then some s
    else
      match scope.parent with
      | none => none
      | some p => if p.index < s.index then h.binder? p name else none
termination_by s.index

/-- What a scope itself binds a name to. -/
def bindingAt? (h : Heap) (s : ScopeRef) (name : String) : Option Binding :=
  (h.scope? s).bind fun scope => scope.bindings.get? name

/-- The binding of a name as seen from a scope. -/
def binding? (h : Heap) (s : ScopeRef) (name : String) : Option Binding :=
  (h.binder? s name).bind fun d => h.bindingAt? d name

/-- The value of a name as seen from a scope. -/
def lookup? (h : Heap) (s : ScopeRef) (name : String) : Option Value :=
  (h.binding? s name).map (·.value)

/-- Whether a scope itself binds a name as a constant. -/
def isConstantAt (h : Heap) (s : ScopeRef) (name : String) : Bool :=
  (h.bindingAt? s name).any (·.constant)

/-- The scope in which a declaration binds a name: the scope itself, unless it binds the name as a
constant. -/
def defineTarget (h : Heap) (s : ScopeRef) (name : String) : Except RuntimeError.Cause ScopeRef :=
  if h.isConstantAt s name then .error (.constantReassignment name) else .ok s

/-- The scope in which an assignment binds a name: the nearest one that binds it, unless as a
constant. -/
def assignTarget (h : Heap) (s : ScopeRef) (name : String) : Except RuntimeError.Cause ScopeRef :=
  match h.binder? s name with
  | none => .error (.undefinedVariable name)
  | some d => if h.isConstantAt d name then .error (.constantReassignment name) else .ok d

/-- Declares a name in a scope. -/
def define (h : Heap) (s : ScopeRef) (name : String) (value : Value) (constant : Bool) :
    Except RuntimeError.Cause Heap :=
  (h.defineTarget s name).map fun d => h.setBinding d name ⟨value, constant⟩

/-- Assigns to a name as seen from a scope. -/
def assign (h : Heap) (s : ScopeRef) (name : String) (value : Value) :
    Except RuntimeError.Cause Heap :=
  (h.assignTarget s name).map fun d => h.setBinding d name ⟨value, false⟩

/-- Makes an empty scope without a scope around it. -/
def newGlobal (h : Heap) : ScopeRef × Heap :=
  h.newScope ⟨.empty, none⟩

/-- Makes an empty scope inside another. -/
def newChild (h : Heap) (parent : ScopeRef) : ScopeRef × Heap :=
  h.newScope ⟨.empty, some parent⟩

/-- The bindings of parameters: each has its argument, and `null` if there are fewer arguments. -/
def parameterBindings : List String → List Value → Dict Binding → Dict Binding
  | [], _, bs => bs
  | p :: ps, [], bs => parameterBindings ps [] (bs.insert p ⟨.null, false⟩)
  | p :: ps, v :: vs, bs => parameterBindings ps vs (bs.insert p ⟨v, false⟩)

end Lipi.Heap
