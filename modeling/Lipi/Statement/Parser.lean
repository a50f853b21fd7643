import Lipi.Expr.Parser
import Lipi.Statement

set_option autoImplicit false

/-! # Reading statements

The grammar of statements. Readers that nest take the reader for a nested statement as an argument;
`declarationWithin` ties the knot. **An error inside a block is recorded and reading goes on behind
it**; only an error that concerns the program markers ends the reading at once.
-/

namespace Lipi

namespace Parser

/-! ## Blocks -/

/-- Whether a block cannot go on at the current token. -/
def endsBlock (s : Stream) : Bool :=
  match s.kind with
  | .sign .rightBrace | .eof | .keyword .khatam => true
  | _ => false

/-- The statements of a block up to its closing brace; `n` attempts at most. The statements read so
far come in reverse order. -/
def blockBody (nested : Parser Statement) : Nat → List Statement → Parser (List Statement)
  | 0, _ => failExhausted
  | n + 1, previous => fun s =>
    if endsBlock s then .ok previous.reverse s
    else
      match nested s with
      | .ok statement s' => blockBody nested n (statement :: previous) s'
      | .error error s' =>
        if error.isFatal then .error error s'
        else blockBody nested n previous ((s'.record error).synchronize true)

/-- A block: the position of its opening brace and its statements. The context is named in
errors. -/
def blockOf (nested : Parser Statement) (context : String) :
    Parser (Position × List Statement) := do
  let start ← consume (.sign .leftBrace) ("Expected '\x7b' before " ++ context)
  let statements ← bounded fun n => blockBody nested n []
  let _ ← consume (.sign .rightBrace) ("Expected '\x7d' after " ++ context)
  return (start.position, statements)

/-! ## Functions and classes -/

/-- The parameters and the body behind the name of a function or method. -/
def routine (nested : Parser Statement) (what : String) :
    Parser (List String × List Statement) := do
  let _ ← consume (.sign .leftParen) ("Expected '(' after " ++ what ++ " name")
  let parameters ← commaSeparated (identifier "Expected parameter name") .rightParen "parameters"
  let (_, body) ← blockOf nested (what ++ " body")
  return (parameters, body)

/-- A function declaration. Its position is that of the name. -/
def functionDecl (nested : Parser Statement) : Parser Statement := do
  let _ ← advance
  let pos := (← get).position
  let name ← identifier "Expected function name"
  let (parameters, body) ← routine nested "function"
  return .function name parameters body pos

/-- The modifiers in front of a method; `n` of them at most. A modifier directly in front of a
parenthesis is the name of the method instead. -/
def methodModifiers : Nat → Access → Bool → Parser (Access × Bool)
  | 0, _, _ => failExhausted
  | n + 1, access, isStatic => fun s =>
    match s.nextKind with
    | .sign .leftParen => .ok (access, isStatic) s
    | _ =>
      match s.kind with
      | .keyword .sabka => methodModifiers n .sabka isStatic s.advance
      | .keyword .niji => methodModifiers n .niji isStatic s.advance
      | .keyword .surakshit => methodModifiers n .surakshit isStatic s.advance
      | .keyword .sthir => methodModifiers n access true s.advance
      | _ => .ok (access, isStatic) s

/-- Skips the keyword that may stand in front of a method's name. -/
def skipFunctionWord : Parser Unit := fun s =>
  match s.kind, s.nextKind with
  | .keyword .kaam, .sign .leftParen => .ok () s
  | .keyword .kaam, _ => .ok () s.advance
  | _, _ => .ok () s

/-- A method of a class. -/
def method (nested : Parser Statement) : Parser Method := do
  let pos := (← get).position
  let (access, isStatic) ← bounded fun n => methodModifiers n .sabka false
  skipFunctionWord
  if ← accept (.keyword .nirmaan) then
    let (parameters, body) ← routine nested "method"
    return .mk access isStatic true Method.constructorName parameters body pos
  else
    let name ← memberName "Expected method name"
    let (parameters, body) ← routine nested "method"
    return .mk access isStatic false name parameters body pos

/-- The methods of a class up to its closing brace, with stray semicolons between them; `n` steps at
most. The methods read so far come in reverse order. -/
def classBody (nested : Parser Statement) : Nat → List Method → Parser (List Method)
  | 0, _ => failExhausted
  | n + 1, previous => fun s =>
    if endsBlock s then .ok previous.reverse s
    else if s.check (.sign .semicolon) then classBody nested n previous s.advance
    else
      match method nested s with
      | .ok m s' => classBody nested n (m :: previous) s'
      | .error error s' => .error error s'

/-- The name of the superclass, if there is one. -/
def superclassName? : Parser (Option String) := do
  if ← accept (.keyword .virasat) then
    return some (← identifier "Expected superclass name after 'virasat'")
  else
    return none

/-- A class declaration. -/
def classDeclOf (nested : Parser Statement) : Parser Statement := do
  let start ← advance
  let name ← identifier "Expected class name"
  let superclass ← superclassName?
  let _ ← consume (.sign .leftBrace) "Expected '\x7b' before class body"
  let methods ← bounded fun n => classBody nested n []
  let _ ← consume (.sign .rightBrace) "Expected '\x7d' after class body"
  return .classDecl name superclass methods start.position

/-! ## Simple statements -/

/-- The declaration of a variable or constant. -/
def bindingDecl (constant : Bool) : Parser Statement := do
  let start ← advance
  let name ← identifier "Expected variable name"
  let _ ← consume (.sign .equal) "Expected '=' after variable name"
  let initializer ← expression
  boundary "variable declaration"
  return .binding constant name initializer start.position

/-- A return; its value is absent where a boundary follows at once. -/
def returnStatement : Parser Statement := do
  let start ← advance
  if (← get).atBoundary then
    boundary "return value"
    return .giveBack none start.position
  else
    let value ← expression
    boundary "return value"
    return .giveBack (some value) start.position

/-- A print statement. -/
def printStatement : Parser Statement := do
  let start ← advance
  let value ← expression
  boundary "print statement"
  return .print value start.position

/-- An expression as a statement. -/
def expressionStatement : Parser Statement := do
  let pos := (← get).position
  let e ← expression
  boundary "expression"
  return .expression e pos

/-- The string literal that names a module. -/
def moduleName : Parser String := fun s =>
  match s.kind with
  | .string source => .ok source s.advance
  | _ => .error (s.expected "Expected module path string after 'se'") s

/-- An import. -/
def importStatement : Parser Statement := do
  let start ← advance
  let _ ← consume (.sign .leftBrace) "Expected '\x7b' after 'lao'"
  let names ← commaSeparated (identifier "Expected imported name") .rightBrace "imported name"
  let _ ← consume (.keyword .se) "Expected 'se' after import list"
  let source ← moduleName
  boundary "import"
  return .importNames names source start.position

/-! ## Statements that nest -/

/-- A conditional statement. -/
def conditionalStatement (nested : Parser Statement) : Parser Statement := do
  let start ← advance
  let test ← condition
  let thenBranch ← nested
  if ← accept (.keyword .warna) then
    let elseBranch ← nested
    return .conditional test thenBranch (some elseBranch) start.position
  else
    return .conditional test thenBranch none start.position

/-- A loop. -/
def loopStatement (nested : Parser Statement) : Parser Statement := do
  let start ← advance
  let test ← condition
  let body ← nested
  return .loop test body start.position

/-- An export of a list of names or of a declaration. -/
def exportStatement (nested : Parser Statement) : Parser Statement := do
  let start ← advance
  match (← get).kind with
  | .sign .leftBrace =>
    let _ ← advance
    let names ← commaSeparated (identifier "Expected exported name") .rightBrace "exported name"
    boundary "export list"
    return .exportNames names start.position
  | .keyword .rakho | .keyword .pakka | .keyword .kaam | .keyword .kaksha =>
    let declaration ← nested
    return .exportDecl declaration start.position
  | _ => failExpected "Expected declaration or '\x7b' after 'bhejo'"

/-- A statement; `nested` reads the statements inside it, given whether they stand at the top
level. -/
def statementOf (nested : Bool → Parser Statement) (topLevel : Bool) : Parser Statement := fun s =>
  match s.kind with
  | .keyword .rakho => bindingDecl false s
  | .keyword .pakka => bindingDecl true s
  | .keyword .kaam => functionDecl (nested false) s
  | .keyword .kaksha => classDeclOf (nested false) s
  | .keyword .lao =>
    if topLevel then importStatement s else .error ⟨.topLevelOnly s.peek.lexeme, s.position⟩ s
  | .keyword .bhejo =>
    if topLevel then exportStatement (nested true) s
    else .error ⟨.topLevelOnly s.peek.lexeme, s.position⟩ s
  | .keyword .shuru => .error ⟨.duplicateProgramStart, s.position⟩ s
  | .keyword .agar => conditionalStatement (nested false) s
  | .keyword .jabtak => loopStatement (nested false) s
  | .keyword .wapas => returnStatement s
  | .keyword .chaap => printStatement s
  | .sign .leftBrace =>
    match blockOf (nested false) "block" s with
    | .ok (pos, statements) s' => .ok (.block statements pos) s'
    | .error error s' => .error error s'
  | .sign .semicolon => .ok (.empty s.position) s.advance
  | _ => expressionStatement s

/-- A statement that nests at most `n` deep. -/
def declarationWithin : Nat → Bool → Parser Statement
  | 0, _ => failExhausted
  | n + 1, topLevel => statementOf (declarationWithin n) topLevel

/-- A statement. Imports and exports are statements only at the top level. -/
def declaration (topLevel : Bool) : Parser Statement :=
  bounded fun n => declarationWithin n topLevel

/-- A block, for the given context. -/
def block (context : String) : Parser (Position × List Statement) :=
  bounded fun n => blockOf (declarationWithin n false) context

/-- A class declaration, whose keyword is the current token. -/
def classDeclaration : Parser Statement :=
  bounded fun n => classDeclOf (declarationWithin n false)

end Parser

end Lipi
