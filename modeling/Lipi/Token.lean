import Lipi.Number
import Lipi.Position
import Lipi.Text.Inspect

set_option autoImplicit false

/-! # Tokens

The words and signs of the language. A keyword has a Hindi spelling, by which it is called here,
and most have an English one as well; **both spellings are the same token**. Words that are no
keywords are identifiers.
-/

namespace Lipi

/-! ## Keywords -/

/-- The keywords, by their Hindi spelling. -/
inductive Keyword where
  /-- Starts a program. -/
  | shuru
  /-- Ends a program. -/
  | khatam
  /-- Declares a variable. -/
  | rakho
  /-- Declares a constant. -/
  | pakka
  /-- Prints a value. -/
  | chaap
  /-- If. -/
  | agar
  /-- Else. -/
  | warna
  /-- While. -/
  | jabtak
  /-- Declares a function. -/
  | kaam
  /-- Returns from a function. -/
  | wapas
  /-- True. -/
  | sahi
  /-- False. -/
  | galat
  /-- The null value. -/
  | khali
  /-- And. -/
  | aur
  /-- Or. -/
  | ya
  /-- Not. -/
  | nahi
  /-- Declares a class. -/
  | kaksha
  /-- Names the superclass. -/
  | virasat
  /-- The constructor of a class. -/
  | nirmaan
  /-- The receiver of the running method. -/
  | yeh
  /-- The superclass, seen from a method. -/
  | upar
  /-- Makes an instance. -/
  | naya
  /-- Marks a public method. -/
  | sabka
  /-- Marks a private method. -/
  | niji
  /-- Marks a protected method. -/
  | surakshit
  /-- Marks a static method. -/
  | sthir
  /-- Imports names. -/
  | lao
  /-- Introduces the module of an import. -/
  | se
  /-- Exports names. -/
  | bhejo
deriving Repr, DecidableEq, Inhabited

namespace Keyword

/-- All keywords. -/
def all : List Keyword :=
  [shuru, khatam, rakho, pakka, chaap, agar, warna, jabtak, kaam, wapas, sahi, galat, khali, aur,
   ya, nahi, kaksha, virasat, nirmaan, yeh, upar, naya, sabka, niji, surakshit, sthir, lao, se,
   bhejo]

theorem mem_all (k : Keyword) : k ∈ all := by
  cases k <;> decide

/-- The Hindi spelling. -/
def spelling : Keyword → String
  | shuru => "shuru"
  | khatam => "khatam"
  | rakho => "rakho"
  | pakka => "pakka"
  | chaap => "chaap"
  | agar => "agar"
  | warna => "warna"
  | jabtak => "jabtak"
  | kaam => "kaam"
  | wapas => "wapas"
  | sahi => "sahi"
  | galat => "galat"
  | khali => "khali"
  | aur => "aur"
  | ya => "ya"
  | nahi => "nahi"
  | kaksha => "kaksha"
  | virasat => "virasat"
  | nirmaan => "nirmaan"
  | yeh => "yeh"
  | upar => "upar"
  | naya => "naya"
  | sabka => "sabka"
  | niji => "niji"
  | surakshit => "surakshit"
  | sthir => "sthir"
  | lao => "lao"
  | se => "se"
  | bhejo => "bhejo"

/-- The English spelling. The program markers have none. -/
def alias? : Keyword → Option String
  | shuru => none
  | khatam => none
  | rakho => some "let"
  | pakka => some "const"
  | chaap => some "print"
  | agar => some "if"
  | warna => some "else"
  | jabtak => some "while"
  | kaam => some "function"
  | wapas => some "return"
  | sahi => some "true"
  | galat => some "false"
  | khali => some "null"
  | aur => some "and"
  | ya => some "or"
  | nahi => some "not"
  | kaksha => some "class"
  | virasat => some "extends"
  | nirmaan => some "constructor"
  | yeh => some "this"
  | upar => some "super"
  | naya => some "new"
  | sabka => some "public"
  | niji => some "private"
  | surakshit => some "protected"
  | sthir => some "static"
  | lao => some "import"
  | se => some "from"
  | bhejo => some "export"

/-- The name of a keyword in token listings, after its English meaning. -/
def label : Keyword → String
  | shuru => "ProgramStart"
  | khatam => "ProgramEnd"
  | rakho => "Let"
  | pakka => "Const"
  | chaap => "Print"
  | agar => "If"
  | warna => "Else"
  | jabtak => "While"
  | kaam => "Function"
  | wapas => "Return"
  | sahi => "True"
  | galat => "False"
  | khali => "Null"
  | aur => "And"
  | ya => "Or"
  | nahi => "Not"
  | kaksha => "Class"
  | virasat => "Extends"
  | nirmaan => "Constructor"
  | yeh => "This"
  | upar => "Super"
  | naya => "New"
  | sabka => "Public"
  | niji => "Private"
  | surakshit => "Protected"
  | sthir => "Static"
  | lao => "Import"
  | se => "From"
  | bhejo => "Export"

/-- The keyword that a word spells, in either language. -/
def ofWord? (word : String) : Option Keyword :=
  all.find? fun k => k.spelling == word || k.alias? == some word

/-- Whether a keyword can begin a statement; reading goes on at such a word after an error. -/
def startsStatement : Keyword → Bool
  | rakho | pakka | chaap | agar | jabtak | kaam | wapas | kaksha | lao | bhejo => true
  | _ => false

end Keyword

/-! ## Signs -/

/-- The operators and the punctuation. -/
inductive Sign where
  | plus
  | minus
  | star
  | slash
  | percent
  | equal
  | equalEqual
  | bangEqual
  | bang
  | less
  | lessEqual
  | greater
  | greaterEqual
  | leftParen
  | rightParen
  | leftBrace
  | rightBrace
  | leftBracket
  | rightBracket
  | comma
  | dot
  | semicolon
deriving Repr, DecidableEq, Inhabited

namespace Sign

/-- All signs. -/
def all : List Sign :=
  [plus, minus, star, slash, percent, equal, equalEqual, bangEqual, bang, less, lessEqual, greater,
   greaterEqual, leftParen, rightParen, leftBrace, rightBrace, leftBracket, rightBracket, comma,
   dot, semicolon]

theorem mem_all (s : Sign) : s ∈ all := by
  cases s <;> decide

/-- How a sign is written. -/
def spelling : Sign → String
  | plus => "+"
  | minus => "-"
  | star => "*"
  | slash => "/"
  | percent => "%"
  | equal => "="
  | equalEqual => "=="
  | bangEqual => "!="
  | bang => "!"
  | less => "<"
  | lessEqual => "<="
  | greater => ">"
  | greaterEqual => ">="
  | leftParen => "("
  | rightParen => ")"
  | leftBrace => "\x7b"
  | rightBrace => "\x7d"
  | leftBracket => "["
  | rightBracket => "]"
  | comma => ","
  | dot => "."
  | semicolon => ";"

/-- The name of a sign in token listings. -/
def label : Sign → String
  | plus => "Plus"
  | minus => "Minus"
  | star => "Star"
  | slash => "Slash"
  | percent => "Percent"
  | equal => "Equal"
  | equalEqual => "EqualEqual"
  | bangEqual => "BangEqual"
  | bang => "Bang"
  | less => "Less"
  | lessEqual => "LessEqual"
  | greater => "Greater"
  | greaterEqual => "GreaterEqual"
  | leftParen => "LParen"
  | rightParen => "RParen"
  | leftBrace => "LBrace"
  | rightBrace => "RBrace"
  | leftBracket => "LBracket"
  | rightBracket => "RBracket"
  | comma => "Comma"
  | dot => "Dot"
  | semicolon => "Semicolon"

/-- The sign of two characters that starts with `c`, if `d` follows. -/
def ofPair? (c d : Char) : Option Sign :=
  if d = '=' then
    match c with
    | '=' => some equalEqual
    | '!' => some bangEqual
    | '<' => some lessEqual
    | '>' => some greaterEqual
    | _ => none
  else none

/-- The sign that is the character `c` alone. -/
def ofChar? : Char → Option Sign
  | '+' => some plus
  | '-' => some minus
  | '*' => some star
  | '/' => some slash
  | '%' => some percent
  | '=' => some equal
  | '!' => some bang
  | '<' => some less
  | '>' => some greater
  | '(' => some leftParen
  | ')' => some rightParen
  | '\x7b' => some leftBrace
  | '\x7d' => some rightBrace
  | '[' => some leftBracket
  | ']' => some rightBracket
  | ',' => some comma
  | '.' => some dot
  | ';' => some semicolon
  | _ => none

end Sign

/-! ## Kinds and tokens -/

/-- What a token is. -/
inductive TokenKind where
  | number (value : Float)
  /-- A string literal, with its escapes resolved. -/
  | string (value : String)
  | identifier (name : String)
  | keyword (word : Keyword)
  | sign (sign : Sign)
  /-- The end of the text. -/
  | eof
deriving Repr, BEq, Inhabited

namespace TokenKind

/-- Whether a token of this kind can begin a statement; reading goes on there after an error. -/
def startsStatement : TokenKind → Bool
  | keyword k => k.startsStatement
  | _ => false

/-- The kind in words. -/
def text : TokenKind → String
  | number value => "number " ++ Number.Layout.plain.text value
  | string value => "string " ++ Text.inspect value
  | identifier name => "identifier '" ++ name ++ "'"
  | keyword k => "'" ++ k.spelling ++ "'"
  | sign s => "'" ++ s.spelling ++ "'"
  | eof => "end of input"

/-- The kind in token listings, with the value of a literal. -/
def label : TokenKind → String
  | number value => "Number(" ++ Number.Layout.exact.text value ++ ")"
  | string value => "String(" ++ Text.inspect value ++ ")"
  | identifier name => "Identifier(" ++ Text.inspect name ++ ")"
  | keyword k => k.label
  | sign s => s.label
  | eof => "Eof"

end TokenKind

/-- A token: its kind, its text as written, and where it starts. -/
structure Token where
  kind : TokenKind
  lexeme : String
  position : Position
deriving Repr, Inhabited

namespace Token

/-- The end of an empty text. -/
def eof : Token := ⟨.eof, "", Position.start⟩

/-- The token as messages name it. -/
def describe (t : Token) : String :=
  match t.kind with
  | .eof => "end of input"
  | .string _ => "string " ++ Text.inspect t.lexeme
  | _ => "'" ++ t.lexeme ++ "'"

/-- Whether the token can name a member: an identifier, or a keyword, which is written with letters
only. -/
def isWord (t : Token) : Bool :=
  match t.kind with
  | .identifier _ => true
  | .keyword _ | .sign _ => t.lexeme.toList.all Char.isAlpha
  | .number _ | .string _ | .eof => false

/-- The line on which a token ends; a string literal may run over several lines. -/
def endLine (t : Token) : Nat :=
  t.position.line + t.lexeme.toList.count '\n'

end Token

end Lipi
