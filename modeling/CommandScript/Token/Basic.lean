import CommandScript.Number.Decimal
import CommandScript.Source.Cursor
import CommandScript.Text.Basic

/-!
# Token/Basic — the tokens of the language

Keywords and symbols are finite types with their spelling (`Keyword.text`, `Symbol.text`); `Token` adds
literals, names, line ends, words of a command line and characters that mean nothing to the grammar.
`Token.text` prints a token back.
-/

namespace CommandScript

/-- Reserved words. -/
inductive Keyword
  | ifWord | elseWord | funcWord | forWord | inWord | returnWord | trueWord | falseWord | noneWord
deriving DecidableEq

namespace Keyword

/-- How the keyword is spelt. -/
def text : Keyword → String
  | ifWord => "if"
  | elseWord => "else"
  | funcWord => "func"
  | forWord => "for"
  | inWord => "in"
  | returnWord => "return"
  | trueWord => "true"
  | falseWord => "false"
  | noneWord => "none"

/-- Every keyword. -/
def all : List Keyword :=
  [ifWord, elseWord, funcWord, forWord, inWord, returnWord, trueWord, falseWord, noneWord]

/-- The keyword with the given spelling. -/
def of? (word : String) : Option Keyword := all.find? fun k => k.text == word

end Keyword

/-- Operators and punctuation. -/
inductive Symbol
  | plus | minus | star | slash | caret | bang
  | equalEqual | notEqual | less | greater | lessEqual | greaterEqual
  | orOr | andAnd | equals | dotDot
  | leftParen | rightParen | leftBrace | rightBrace | leftBracket | rightBracket
  | comma | dot | semicolon
deriving DecidableEq

namespace Symbol

/-- How the symbol is spelt. -/
def text : Symbol → String
  | plus => "+"
  | minus => "-"
  | star => "*"
  | slash => "/"
  | caret => "^"
  | bang => "!"
  | equalEqual => "=="
  | notEqual => "!="
  | less => "<"
  | greater => ">"
  | lessEqual => "<="
  | greaterEqual => ">="
  | orOr => "||"
  | andAnd => "&&"
  | equals => "="
  | dotDot => ".."
  | leftParen => "("
  | rightParen => ")"
  | leftBrace => "\x7b"
  | rightBrace => "\x7d"
  | leftBracket => "["
  | rightBracket => "]"
  | comma => ","
  | dot => "."
  | semicolon => ";"

/-- Whether the symbol only groups or separates. -/
def isPunctuation : Symbol → Bool
  | leftParen | rightParen | leftBrace | rightBrace | leftBracket | rightBracket => true
  | comma | dot | semicolon => true
  | _ => false

end Symbol

/-- A token. -/
inductive Token
  | number (value : Float)
  | string (text : String)
  | template (parts : List Part)
  | identifier (name : String)
  | keyword (word : Keyword)
  | symbol (sign : Symbol)
  | newline
  /-- A word of a command line. -/
  | word (parts : List Part)
  /-- A character without a meaning in the grammar. -/
  | stray (char : Char)
  | endOfInput

/-- Coarse classes of tokens. -/
inductive TokenClass
  | number | string | template | identifier | keyword | operator | punctuation | word | newline
  | stray | endOfInput
deriving DecidableEq

namespace Token

/-- The token printed back. -/
def text : Token → String
  | number x => Number.text x
  | string s => "'" ++ s ++ "'"
  | template parts => "\"" ++ Part.textOf parts ++ "\""
  | identifier name => name
  | keyword k => k.text
  | symbol s => s.text
  | newline => "newline"
  | word parts => Part.textOf parts
  | stray c => String.singleton c
  | endOfInput => "EOF"

/-- The class of a token. -/
def toClass : Token → TokenClass
  | number _ => .number
  | string _ => .string
  | template _ => .template
  | identifier _ => .identifier
  | keyword _ => .keyword
  | symbol s => if s.isPunctuation then .punctuation else .operator
  | newline => .newline
  | word _ => .word
  | stray _ => .stray
  | endOfInput => .endOfInput

/-- Whether the token is the given symbol. -/
def isSymbol (t : Token) (s : Symbol) : Bool :=
  match t with
  | symbol s' => s' == s
  | _ => false

/-- Whether the token is the given keyword. -/
def isKeyword (t : Token) (k : Keyword) : Bool :=
  match t with
  | keyword k' => k' == k
  | _ => false

/-- Whether the token ends a line. -/
def isNewline : Token → Bool
  | newline => true
  | _ => false

/-- Whether the token ends the text. -/
def isEnd : Token → Bool
  | endOfInput => true
  | _ => false

end Token

/-- A token and where it stands. -/
structure Located where
  token : Token
  span : Span

end CommandScript
