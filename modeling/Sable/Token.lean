/-! Tokens of the language: punctuation, keywords, literals and names, with their spelling in a source
text and the labels by which error messages call them. -/
namespace Sable

inductive Punctuation where
  | leftParen | rightParen | leftBracket | rightBracket | leftBrace | rightBrace
  | comma | colon | dot | ellipsis | hash | question | pipe | arrow | fatArrow
  | assign | equals | less | greater
  | plus | minus | star | slash | doubleSlash | percent
deriving DecidableEq, Repr

namespace Punctuation

def chars : Punctuation → List Char
  | leftParen => ['('] | rightParen => [')'] | leftBracket => ['['] | rightBracket => [']']
  | leftBrace => ['\x7b'] | rightBrace => ['\x7d']
  | comma => [','] | colon => [':'] | dot => ['.'] | ellipsis => ['.', '.', '.']
  | hash => ['#'] | question => ['?'] | pipe => ['|'] | arrow => ['-', '>'] | fatArrow => ['=', '>']
  | assign => ['='] | equals => ['=', '='] | less => ['<'] | greater => ['>']
  | plus => ['+'] | minus => ['-'] | star => ['*'] | slash => ['/'] | doubleSlash => ['/', '/']
  | percent => ['%']

def label : Punctuation → String
  | leftParen => "LParen" | rightParen => "RParen"
  | leftBracket => "LBracket" | rightBracket => "RBracket"
  | leftBrace => "LBrace" | rightBrace => "RBrace"
  | comma => "Comma" | colon => "Colon" | dot => "Dot" | ellipsis => "Ellipsis"
  | hash => "Hash" | question => "Question" | pipe => "Pipe" | arrow => "Arrow"
  | fatArrow => "FatArrow" | assign => "Assign" | equals => "EqEq" | less => "Lt" | greater => "Gt"
  | plus => "Plus" | minus => "Minus" | star => "Star" | slash => "Slash"
  | doubleSlash => "SlashSlash" | percent => "Percent"

/-- Every mark, those of more characters first. -/
def all : List Punctuation :=
  [ellipsis, arrow, fatArrow, equals, doubleSlash, leftParen, rightParen, leftBracket, rightBracket,
   leftBrace, rightBrace, comma, colon, dot, hash, question, pipe, assign, less, greater, plus, minus,
   star, slash, percent]

end Punctuation

inductive Keyword where
  | valWord | defWord | externalWord | typeWord | unionWord | returnWord
  | ifWord | thenWord | elseWord | fnWord | matchWord
  | andWord | orWord | notWord | isWord | untagWord | trueWord | falseWord | nullWord
deriving DecidableEq, Repr

namespace Keyword

def text : Keyword → String
  | valWord => "val" | defWord => "def" | externalWord => "external" | typeWord => "type"
  | unionWord => "union" | returnWord => "return" | ifWord => "if" | thenWord => "then"
  | elseWord => "else" | fnWord => "fn" | matchWord => "match" | andWord => "and" | orWord => "or"
  | notWord => "not" | isWord => "is" | untagWord => "untag" | trueWord => "true"
  | falseWord => "false" | nullWord => "null"

def label : Keyword → String
  | valWord => "Val" | defWord => "Def" | externalWord => "External" | typeWord => "Type"
  | unionWord => "Union" | returnWord => "Return" | ifWord => "If" | thenWord => "Then"
  | elseWord => "Else" | fnWord => "Fn" | matchWord => "Match" | andWord => "And" | orWord => "Or"
  | notWord => "Not" | isWord => "Is" | untagWord => "Untag" | trueWord => "True"
  | falseWord => "False" | nullWord => "Null"

def all : List Keyword :=
  [valWord, defWord, externalWord, typeWord, unionWord, returnWord, ifWord, thenWord, elseWord, fnWord,
   matchWord, andWord, orWord, notWord, isWord, untagWord, trueWord, falseWord, nullWord]

/-- The keyword spelt like this, if there is one. -/
def ofText? (word : String) : Option Keyword := all.find? (·.text == word)

/-- The keywords that begin a declaration. -/
def opensDeclaration : Keyword → Bool
  | valWord | defWord | externalWord | typeWord | unionWord => true
  | _ => false

end Keyword

/-- A token. An integer of any size, `123n`, keeps its digits; a name stands for a value, a type or a
tag alike. -/
inductive Token where
  | mark (mark : Punctuation)
  | keyword (word : Keyword)
  | number (value : Float)
  | bigInteger (digits : String)
  | ident (name : String)
deriving DecidableEq, Repr

end Sable
