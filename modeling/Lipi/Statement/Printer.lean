import Lipi.Expr.Printer
import Lipi.Statement

set_option autoImplicit false

/-! # The text of a program

The canonical text of statements and programs: one statement a line, bodies in braces and indented
by four blanks, a semicolon behind every statement that takes one, keywords in Hindi.
-/

namespace Lipi

namespace Statement

/-- The blanks in front of a line at a nesting depth. -/
def indent (depth : Nat) : String :=
  String.ofList (List.replicate (4 * depth) ' ')

/-- Names separated by commas. -/
def nameList (names : List String) : String :=
  ", ".intercalate names

/-- The modifiers in front of a method. -/
def modifiers (access : Access) (isStatic : Bool) : String :=
  (match access with
    | .sabka => ""
    | .niji => "niji "
    | .surakshit => "surakshit ")
    ++ (if isStatic then "sthir " else "")

/-- The lines of a body between braces; a body without lines is a pair of braces. -/
def braces (depth : Nat) (lines : String) : String :=
  if lines.isEmpty then "\x7b\x7d" else "\x7b\n" ++ lines ++ indent depth ++ "\x7d"

mutual

/-- The canonical text of a statement whose line is indented to `depth`. -/
def textAt (depth : Nat) : Statement → String
  | binding constant name initializer _ =>
    (if constant then "pakka " else "rakho ") ++ name ++ " = " ++ initializer.text ++ ";"
  | function name parameters body _ =>
    "kaam " ++ name ++ "(" ++ nameList parameters ++ ") " ++ braces depth (linesAt (depth + 1) body)
  | classDecl name superclass methods _ =>
    "kaksha " ++ name
      ++ (match superclass with
          | some parent => " virasat " ++ parent
          | none => "")
      ++ " " ++ braces depth (methodLinesAt (depth + 1) methods)
  | conditional condition thenBranch none _ =>
    "agar (" ++ condition.text ++ ") " ++ textAt depth thenBranch
  | conditional condition thenBranch (some elseBranch) _ =>
    "agar (" ++ condition.text ++ ") " ++ textAt depth thenBranch ++ " warna "
      ++ textAt depth elseBranch
  | loop condition body _ => "jabtak (" ++ condition.text ++ ") " ++ textAt depth body
  | giveBack (some value) _ => "wapas " ++ value.text ++ ";"
  | giveBack none _ => "wapas;"
  | print value _ => "chaap " ++ value.text ++ ";"
  | block statements _ => braces depth (linesAt (depth + 1) statements)
  | expression expr _ => expr.text ++ ";"
  | empty _ => ";"
  | importNames names source _ =>
    "lao \x7b " ++ nameList names ++ " \x7d se " ++ Text.quote source ++ ";"
  | exportDecl declaration _ => "bhejo " ++ textAt depth declaration
  | exportNames names _ => "bhejo \x7b " ++ nameList names ++ " \x7d;"

/-- The lines of statements at a nesting depth. -/
def linesAt (depth : Nat) : List Statement → String
  | [] => ""
  | s :: ss => indent depth ++ textAt depth s ++ "\n" ++ linesAt depth ss

/-- The lines of methods at a nesting depth. A constructor is printed by its keyword. -/
def methodLinesAt (depth : Nat) : List Method → String
  | [] => ""
  | .mk access isStatic isConstructor name parameters body _ :: ms =>
    indent depth ++ modifiers access isStatic ++ (if isConstructor then "nirmaan" else name)
      ++ "(" ++ nameList parameters ++ ") " ++ braces depth (linesAt (depth + 1) body) ++ "\n"
      ++ methodLinesAt depth ms

end

/-- The canonical text of a statement. -/
def text (s : Statement) : String :=
  textAt 0 s

end Statement

/-- The canonical text of a program. Between markers the lines are indented. -/
def Program.text (p : Program) : String :=
  if p.markers then "shuru\n" ++ Statement.linesAt 1 p.body ++ "khatam\n"
  else Statement.linesAt 0 p.body

end Lipi
