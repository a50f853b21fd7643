import Lipi.Heap.Class

set_option autoImplicit false

/-! # The text of values

What `chaap` prints. A string is its own text, but stands in quotes inside an array. An array is
written out, and **an array that is being written already is written `[...]`**, so that the text is
finite on a cyclic heap as well.
-/

namespace Lipi.Heap

/-- The text of a value that is no array. -/
def simpleText (h : Heap) : Value → String
  | .number x => Number.text x
  | .string s => s
  | .bool true => "true"
  | .bool false => "false"
  | .null => "null"
  | .undefined => "undefined"
  | .array _ => "[...]"
  | .function f => "<function " ++ (h.function f).routine.name ++ ">"
  | .bound _ m _ => "<function " ++ (h.method m).routine.name ++ ">"
  | .ofClass c => "<class " ++ (h.classObject c).name ++ ">"
  | .object o => "<" ++ (h.classObject (h.classOf o)).name ++ " instance>"

/-- The text of a value as an element of an array. The arrays in `opened` are being written; at most
`n` more can be opened. -/
def elementText (h : Heap) : Nat → List ArrayRef → Value → String
  | _, _, .string s => "\"" ++ s ++ "\""
  | 0, _, v => h.simpleText v
  | n + 1, opened, .array a =>
    if a ∈ opened then "[...]"
    else
      let texts := (h.elements a).toList.map (h.elementText n (a :: opened))
      "[" ++ ", ".intercalate texts ++ "]"
  | _, _, v => h.simpleText v

/-- The text of a value. As no array is opened inside itself, at most as many arrays are open as
there are; one more has room then. -/
def text (h : Heap) : Value → String
  | .string s => s
  | v => h.elementText (h.arrays.size + 1) [] v

/-- The value with its type, for a reader who wants to tell `1` from `"1"`. -/
def inspect (h : Heap) : Value → String
  | .string s => "String(" ++ Text.inspect s ++ ")"
  | .number x => "Number(" ++ Number.Layout.exact.text x ++ ")"
  | .bool true => "Bool(true)"
  | .bool false => "Bool(false)"
  | .null => "Null"
  | .undefined => "Undefined"
  | v => v.type.name ++ "(" ++ h.text v ++ ")"

/-- Whether the text of a value, as an element of an array, mentions an instance. -/
def elementMentions (h : Heap) (o : InstanceRef) : Nat → List ArrayRef → Value → Bool
  | _, _, .object p => o == p
  | n + 1, opened, .array a =>
    if a ∈ opened then false
    else (h.elements a).toList.any (h.elementMentions o n (a :: opened))
  | _, _, _ => false

/-- Whether the text of a value mentions an instance. -/
def mentions (h : Heap) (o : InstanceRef) (v : Value) : Bool :=
  h.elementMentions o h.arrays.size [] v

end Lipi.Heap
