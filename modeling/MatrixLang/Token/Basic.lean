import MatrixLang.NumberText

/-!
# Tokens

A token is a lexeme and the line it starts on. A lexeme is a literal, a name, a
fixed text of the language or the end of the input. The fixed texts are listed
once, in `Keyword.chars` and `Symbol.chars`; the scanner looks them up there and
messages quote them from there.
-/

namespace MatrixLang

/-- The words that are no names. -/
inductive Keyword where
  | if_ | else_ | for_ | while_ | break_ | continue_ | return_
  | eye | zeros | ones | print
deriving Repr, DecidableEq

namespace Keyword

def all : List Keyword :=
  [.if_, .else_, .for_, .while_, .break_, .continue_, .return_, .eye, .zeros, .ones, .print]

def chars : Keyword → List Char
  | .if_ => ['i', 'f']
  | .else_ => ['e', 'l', 's', 'e']
  | .for_ => ['f', 'o', 'r']
  | .while_ => ['w', 'h', 'i', 'l', 'e']
  | .break_ => ['b', 'r', 'e', 'a', 'k']
  | .continue_ => ['c', 'o', 'n', 't', 'i', 'n', 'u', 'e']
  | .return_ => ['r', 'e', 't', 'u', 'r', 'n']
  | .eye => ['e', 'y', 'e']
  | .zeros => ['z', 'e', 'r', 'o', 's']
  | .ones => ['o', 'n', 'e', 's']
  | .print => ['p', 'r', 'i', 'n', 't']

def text (k : Keyword) : String := String.ofList k.chars

/-- The name of the token class: the keyword in capitals. -/
def name (k : Keyword) : String := String.ofList (k.chars.map Char.toUpper)

def ofChars? (cs : List Char) : Option Keyword := all.find? (·.chars = cs)

@[simp] theorem ofChars?_chars (k : Keyword) : ofChars? k.chars = some k := by
  cases k <;> decide

end Keyword

/-- The operators and delimiters. -/
inductive Symbol where
  | dotAdd | dotSub | dotMul | dotDiv
  | addAssign | subAssign | mulAssign | divAssign
  | le | ge | ne | eq
  | plus | minus | star | slash | assign | lt | gt
  | lparen | rparen | lbracket | rbracket | lbrace | rbrace
  | colon | comma | semicolon | quote
deriving Repr, DecidableEq

namespace Symbol

def all : List Symbol :=
  [.dotAdd, .dotSub, .dotMul, .dotDiv, .addAssign, .subAssign, .mulAssign, .divAssign,
    .le, .ge, .ne, .eq, .plus, .minus, .star, .slash, .assign, .lt, .gt,
    .lparen, .rparen, .lbracket, .rbracket, .lbrace, .rbrace, .colon, .comma, .semicolon, .quote]

def chars : Symbol → List Char
  | .dotAdd => ['.', '+']
  | .dotSub => ['.', '-']
  | .dotMul => ['.', '*']
  | .dotDiv => ['.', '/']
  | .addAssign => ['+', '=']
  | .subAssign => ['-', '=']
  | .mulAssign => ['*', '=']
  | .divAssign => ['/', '=']
  | .le => ['<', '=']
  | .ge => ['>', '=']
  | .ne => ['!', '=']
  | .eq => ['=', '=']
  | .plus => ['+']
  | .minus => ['-']
  | .star => ['*']
  | .slash => ['/']
  | .assign => ['=']
  | .lt => ['<']
  | .gt => ['>']
  | .lparen => ['(']
  | .rparen => [')']
  | .lbracket => ['[']
  | .rbracket => [']']
  | .lbrace => ['{']
  | .rbrace => ['}']
  | .colon => [':']
  | .comma => [',']
  | .semicolon => [';']
  | .quote => ['\'']

def text (s : Symbol) : String := String.ofList s.chars

/-- The name of the token class. A symbol of one character is its own name. -/
def name : Symbol → String
  | .dotAdd => "DOTADD"
  | .dotSub => "DOTSUB"
  | .dotMul => "DOTMUL"
  | .dotDiv => "DOTDIV"
  | .addAssign => "ADDASSIGN"
  | .subAssign => "SUBASSIGN"
  | .mulAssign => "MULASSIGN"
  | .divAssign => "DIVASSIGN"
  | .le => "LEQ"
  | .ge => "GEQ"
  | .ne => "NEQ"
  | .eq => "EQ"
  | s => s.text

def ofChars? (cs : List Char) : Option Symbol := all.find? (·.chars = cs)

@[simp] theorem ofChars?_chars (s : Symbol) : ofChars? s.chars = some s := by
  cases s <;> decide

end Symbol

/-- A token without its line. -/
inductive Lexeme where
  | int (value : Int64)
  | float (value : Float)
  /-- The contents of a string, with its escapes decoded. -/
  | str (value : String)
  | ident (name : String)
  | word (keyword : Keyword)
  | symbol (symbol : Symbol)
  | eof

namespace Lexeme

def name : Lexeme → String
  | .int _ => "INTNUM"
  | .float _ => "FLOATNUM"
  | .str _ => "STRING"
  | .ident _ => "ID"
  | .word k => k.name
  | .symbol s => s.name
  | .eof => "EOF"

/-- What a message shows of a token. -/
def text : Lexeme → String
  | .int n => toString n.toInt
  | .float x => floatText x
  | .str s => s
  | .ident s => s
  | .word k => k.text
  | .symbol s => s.text
  | .eof => "end of input"

def isEof : Lexeme → Bool
  | .eof => true
  | _ => false

/-- The fixed lexeme of a class name, if the class has only one member. -/
def ofName? (name : String) : Option Lexeme :=
  if name = "EOF" then some .eof
  else
    match Keyword.all.find? (·.name = name) with
    | some k => some (.word k)
    | none => (Symbol.all.find? (·.name = name)).map .symbol

end Lexeme

/-- A lexeme and the line it starts on. -/
structure Token where
  lexeme : Lexeme
  line : Nat

def Token.text (t : Token) : String :=
  s!"({t.line}): {t.lexeme.name}({t.lexeme.text})"

end MatrixLang
